import Mathlib.Data.List.Nodup

/-!
# Trees balanced by height

Trees whose nodes carry an entry and a balance, and paths into them. Everything is said of one
side and the other one, so that it needs to be said only once. `Grown` and `Shrunk` are the two
ways of rebalancing, from a subtree that has become higher or lower by one up to the root.
-/

open List

universe u

/-- A side of a node. -/
inductive Side where
  | left
  | right
  deriving DecidableEq, Repr

namespace Side

/-- The other side. -/
def other : Side → Side
  | left => right
  | right => left

/-- The sign of a side. -/
def sign : Side → Int
  | left => -1
  | right => 1

/-- What lies on a side, an entry, and what lies on the other side, from left to right. -/
def line {α : Type u} (d : Side) (X : List α) (a : α) (Y : List α) : List α :=
  match d with
  | left => X ++ a :: Y
  | right => Y ++ a :: X

@[simp] theorem other_other (d : Side) : d.other.other = d := by
  cases d <;> rfl

@[simp] theorem sign_other (d : Side) : d.other.sign = -d.sign := by
  cases d <;> rfl

@[simp] theorem sign_left : left.sign = -1 := rfl

@[simp] theorem sign_right : right.sign = 1 := rfl

theorem sign_ne_zero (d : Side) : d.sign ≠ 0 := by
  cases d <;> decide

theorem sign_ne_neg (d : Side) : d.sign ≠ -d.sign := by
  cases d <;> decide

@[simp] theorem other_ne (d : Side) : d.other ≠ d := by
  cases d <;> decide

theorem sign_inj {d e : Side} : d.sign = e.sign ↔ d = e := by
  cases d <;> cases e <;> decide

theorem eq_or_eq_other (d e : Side) : e = d ∨ e = d.other := by
  cases d <;> cases e <;> decide

theorem exists_sign {b : Int} (hlow : -1 ≤ b) (hhigh : b ≤ 1) (hb : b ≠ 0) :
    ∃ d : Side, b = d.sign := by
  obtain rfl | rfl : b = -1 ∨ b = 1 := by omega
  · exact ⟨left, rfl⟩
  · exact ⟨right, rfl⟩

end Side

/-- A tree whose nodes carry an entry and a balance. -/
inductive AvlTree (α : Type u) where
  | nil
  | node (l : AvlTree α) (a : α) (b : Int) (r : AvlTree α)

namespace AvlTree

variable {α : Type u}

/-- A node, with one subtree on the given side and one on the other. -/
def join (d : Side) (x : AvlTree α) (a : α) (b : Int) (y : AvlTree α) : AvlTree α :=
  match d with
  | .left => node x a b y
  | .right => node y a b x

/-- A node without subtrees. -/
def leaf (a : α) : AvlTree α := node nil a 0 nil

/-- The entries from left to right. -/
def entries : AvlTree α → List α
  | nil => []
  | node l a _ r => l.entries ++ a :: r.entries

/-- The height. -/
def height : AvlTree α → Nat
  | nil => 0
  | node l _ _ r => max l.height r.height + 1

/-- The balance of the root. -/
def balance : AvlTree α → Int
  | nil => 0
  | node _ _ b _ => b

/-- Each balance is the difference of the heights, and no more than one. -/
def Balanced : AvlTree α → Prop
  | nil => True
  | node l _ b r =>
    b = (r.height : Int) - l.height ∧ -1 ≤ b ∧ b ≤ 1 ∧ l.Balanced ∧ r.Balanced

section Join

variable (d : Side) (x y : AvlTree α) (a : α) (b : Int)

@[simp] theorem join_other : join d.other x a b y = join d y a b x := by
  cases d <;> rfl

theorem join_ne_nil : join d x a b y ≠ nil := by
  cases d <;> simp [join]

@[simp] theorem entries_nil : (nil : AvlTree α).entries = [] := rfl

@[simp] theorem entries_node (l r : AvlTree α) :
    (node l a b r).entries = l.entries ++ a :: r.entries := rfl

@[simp] theorem entries_join :
    (join d x a b y).entries = d.line x.entries a y.entries := by
  cases d <;> rfl

@[simp] theorem height_nil : (nil : AvlTree α).height = 0 := rfl

@[simp] theorem height_join : (join d x a b y).height = max x.height y.height + 1 := by
  cases d
  · rfl
  · exact congrArg (· + 1) (Nat.max_comm ..)

@[simp] theorem balance_join : (join d x a b y).balance = b := by
  cases d <;> rfl

@[simp] theorem balanced_nil : (nil : AvlTree α).Balanced := trivial

@[simp] theorem balanced_leaf : (leaf a).Balanced := by
  simp [leaf, Balanced]

theorem balanced_join : (join d x a b y).Balanced ↔
    b = d.sign * ((x.height : Int) - y.height) ∧ -1 ≤ b ∧ b ≤ 1 ∧ x.Balanced ∧ y.Balanced := by
  cases d <;> simp only [join, Balanced, Side.sign_left, Side.sign_right] <;>
    constructor <;> rintro ⟨h, h₁, h₂, hx, hy⟩ <;> exact ⟨by omega, h₁, h₂, by assumption, by assumption⟩

end Join

/-- A tree that is not empty has a root, and a subtree on either side. -/
theorem exists_join (d : Side) {t : AvlTree α} (ht : t ≠ nil) :
    ∃ x a y, t = join d x a t.balance y := by
  cases t with
  | nil => exact absurd rfl ht
  | node l a b r =>
    cases d with
    | left => exact ⟨l, a, r, rfl⟩
    | right => exact ⟨r, a, l, rfl⟩

theorem ne_nil_of_height {t : AvlTree α} (ht : 0 < t.height) : t ≠ nil := by
  rintro rfl
  simp at ht

/-- What is above a subtree: the node that it hangs from, and the other subtree of that. -/
structure Above (α : Type u) where
  /-- The side on which it hangs. -/
  side : Side
  entry : α
  balance : Int
  sibling : AvlTree α

/-- A subtree and the node above it. -/
def attach (f : Above α) (t : AvlTree α) : AvlTree α := join f.side t f.entry f.balance f.sibling

/-- The node above with another balance. -/
def Above.weigh (f : Above α) (b : Int) : Above α := { f with balance := b }

/-- A subtree, and the nodes above it from the next one up to the root. -/
def plug (t : AvlTree α) : List (Above α) → AvlTree α
  | [] => t
  | f :: p => plug (attach f t) p

/-- The entries to the left of a subtree. -/
def before : List (Above α) → List α
  | [] => []
  | f :: p =>
    match f.side with
    | .left => before p
    | .right => before p ++ (f.sibling.entries ++ [f.entry])

/-- The entries to the right of a subtree. -/
def after : List (Above α) → List α
  | [] => []
  | f :: p =>
    match f.side with
    | .left => f.entry :: f.sibling.entries ++ after p
    | .right => after p

/-- The height of the whole tree, by that of a subtree. -/
def climb : List (Above α) → Nat → Nat
  | [], h => h
  | f :: p, h => climb p (max h f.sibling.height + 1)

/-- The nodes above a subtree of this height have the right balances. -/
def Fits : List (Above α) → Nat → Prop
  | [], _ => True
  | f :: p, h => f.balance = f.side.sign * ((h : Int) - f.sibling.height) ∧ -1 ≤ f.balance ∧
    f.balance ≤ 1 ∧ f.sibling.Balanced ∧ Fits p (max h f.sibling.height + 1)

section Paths

variable (t : AvlTree α) (f : Above α) (p q : List (Above α)) (h : Nat)

@[simp] theorem plug_nil : plug t [] = t := rfl

@[simp] theorem plug_cons : plug t (f :: p) = plug (attach f t) p := rfl

@[simp] theorem plug_append : plug t (p ++ q) = plug (plug t p) q := by
  induction p generalizing t with
  | nil => rfl
  | cons f p ih => exact ih (attach f t)

@[simp] theorem entries_plug : (plug t p).entries = before p ++ (t.entries ++ after p) := by
  induction p generalizing t with
  | nil => simp [before, after]
  | cons f p ih =>
    obtain ⟨side, a, b, s⟩ := f
    cases side <;> simp [ih, attach, before, after, Side.line]

theorem mem_entries_plug {g : Above α} (hg : g ∈ p) : g.entry ∈ (plug t p).entries := by
  induction p generalizing t with
  | nil => cases hg
  | cons f p ih =>
    obtain rfl | hg := mem_cons.mp hg
    · obtain ⟨side, a, b, s⟩ := g
      cases side <;> simp [attach, Side.line]
    · exact ih _ hg

theorem plug_ne_nil {t : AvlTree α} (ht : t ≠ nil) : plug t p ≠ nil := by
  induction p generalizing t with
  | nil => exact ht
  | cons f p ih => exact ih (join_ne_nil _ _ _ _ _)

@[simp] theorem height_attach : (attach f t).height = max t.height f.sibling.height + 1 :=
  height_join ..

@[simp] theorem height_plug : (plug t p).height = climb p t.height := by
  induction p generalizing t with
  | nil => rfl
  | cons f p ih =>
    rw [plug_cons, ih, height_attach]
    rfl

theorem balanced_plug : (plug t p).Balanced ↔ t.Balanced ∧ Fits p t.height := by
  induction p generalizing t with
  | nil => simp [Fits]
  | cons f p ih =>
    rw [plug_cons, ih, height_attach, attach, balanced_join, Fits]
    tauto

theorem fits_append : Fits (p ++ q) h ↔ Fits p h ∧ Fits q (climb p h) := by
  induction p generalizing h with
  | nil => simp [Fits, climb]
  | cons f p ih =>
    rw [cons_append, Fits, Fits, climb, ih]
    tauto

/-- Only sides and siblings decide what lies on both sides of a subtree. -/
@[simp] theorem before_weigh (b : Int) : before (f.weigh b :: p) = before (f :: p) := rfl

@[simp] theorem after_weigh (b : Int) : after (f.weigh b :: p) = after (f :: p) := rfl

end Paths

section Zipper

variable {t : AvlTree α} {a : α}

theorem exists_plug (ha : a ∈ t.entries) : ∃ l b r p, t = plug (node l a b r) p := by
  induction t with
  | nil => simp at ha
  | node l c b r ihl ihr =>
    rw [entries, mem_append, mem_cons] at ha
    obtain ha | rfl | ha := ha
    · obtain ⟨l', b', r', p, rfl⟩ := ihl ha
      exact ⟨l', b', r', p ++ [⟨.left, c, b, r⟩], by simp [attach, join]⟩
    · exact ⟨l, b, r, [], rfl⟩
    · obtain ⟨l', b', r', p, rfl⟩ := ihr ha
      exact ⟨l', b', r', p ++ [⟨.right, c, b, l⟩], by simp [attach, join]⟩

/-- The way always to one side, as far as it goes. -/
theorem exists_descent (d : Side) (ht : t ≠ nil) :
    ∃ x a b p, t = plug (join d nil a b x) p ∧ ∀ f ∈ p, f.side = d := by
  induction t with
  | nil => exact absurd rfl ht
  | node l a b r ihl ihr =>
    cases d with
    | left =>
      by_cases hl : l = nil
      · exact ⟨r, a, b, [], by simp [hl, join], by simp⟩
      · obtain ⟨x, c, b', p, rfl, hp⟩ := ihl hl
        refine ⟨x, c, b', p ++ [⟨.left, a, b, r⟩], by simp [attach, join], fun f hf => ?_⟩
        rw [mem_append, mem_singleton] at hf
        obtain hf | rfl := hf
        · exact hp f hf
        · rfl
    | right =>
      by_cases hr : r = nil
      · exact ⟨l, a, b, [], by simp [hr, join], by simp⟩
      · obtain ⟨x, c, b', p, rfl, hp⟩ := ihr hr
        refine ⟨x, c, b', p ++ [⟨.right, a, b, l⟩], by simp [attach, join], fun f hf => ?_⟩
        rw [mem_append, mem_singleton] at hf
        obtain hf | rfl := hf
        · exact hp f hf
        · rfl

theorem before_eq_nil {p : List (Above α)} (hp : ∀ f ∈ p, f.side = .left) : before p = [] := by
  induction p with
  | nil => rfl
  | cons f p ih =>
    obtain ⟨side, a, b, s⟩ := f
    obtain rfl : side = .left := hp _ mem_cons_self
    exact ih fun g hg => hp g (mem_cons_of_mem _ hg)

theorem after_eq_nil {p : List (Above α)} (hp : ∀ f ∈ p, f.side = .right) : after p = [] := by
  induction p with
  | nil => rfl
  | cons f p ih =>
    obtain ⟨side, a, b, s⟩ := f
    obtain rfl : side = .right := hp _ mem_cons_self
    exact ih fun g hg => hp g (mem_cons_of_mem _ hg)

/-- An entry is taken out: its neighbour, at the end of the way to the other side, is put in its
place. -/
theorem entries_replace {d : Side} {l r x y : AvlTree α} {a e : α} {b c : Int}
    {p q : List (Above α)} (hq : ∀ f ∈ q, f.side = d.other)
    (hnode : node l a b r = join d (plug (join d y e c nil) q) a b x) :
    (plug y (q ++ ⟨d, e, b, x⟩ :: p)).entries =
      (before p ++ l.entries) ++ (r.entries ++ after p) := by
  cases d with
  | left =>
    obtain ⟨rfl, -, -, rfl⟩ := node.inj hnode
    simp [after_eq_nil hq, attach, Side.line]
  | right =>
    obtain ⟨rfl, -, -, rfl⟩ := node.inj hnode
    simp [before_eq_nil hq, attach, Side.line]

end Zipper

section Levels

variable {t : AvlTree α} {f : Above α} {p : List (Above α)} {n : Nat}

/-- A subtree that has become higher makes an even node above it heavier on its side. -/
theorem attach_higher (hb : f.balance = 0) (ht : t.Balanced) (hheight : t.height = n + 1)
    (hfits : Fits (f :: p) n) :
    (attach (f.weigh f.side.sign) t).Balanced ∧
      (attach (f.weigh f.side.sign) t).height = n + 2 ∧ Fits p (n + 1) := by
  obtain ⟨hbalance, -, -, hs, hfits⟩ := hfits
  have heven : f.sibling.height = n := by
    cases hd : f.side <;> simp [hd] at hbalance <;> omega
  refine ⟨?_, by simp [Above.weigh, hheight, heven], by simpa [heven] using hfits⟩
  rw [attach, balanced_join]
  simp only [Above.weigh, hheight, heven]
  cases f.side
  · exact ⟨by omega, by decide, by decide, ht, hs⟩
  · exact ⟨by omega, by decide, by decide, ht, hs⟩

/-- A subtree that has become lower makes a node even that was heavier on its side. -/
theorem attach_lower (hb : f.balance = f.side.sign) (hfits : Fits (f :: p) (t.height + 1)) :
    (t.Balanced → (attach (f.weigh 0) t).Balanced) ∧
      Fits p ((attach (f.weigh 0) t).height + 1) := by
  obtain ⟨hbalance, -, -, hs, hfits⟩ := hfits
  have hlower : f.sibling.height = t.height := by
    cases hd : f.side <;> simp [hd] at hb hbalance <;> omega
  refine ⟨fun ht => ?_, by simpa [Above.weigh, hlower] using hfits⟩
  rw [attach, balanced_join]
  simp [Above.weigh, ht, hs, hlower]

end Levels

/-- The balances that a double rotation leaves on both sides, by that of the node between them. -/
theorem split_balances {d : Side} {b : Int} {h k m : Nat} (hb : b = d.sign * ((h : Int) - k))
    (hlow : -1 ≤ b) (hhigh : b ≤ 1) (hm : max h k = m) :
    (if b = -d.sign then d.sign else 0) = d.sign * ((m : Int) - h) ∧
      (if b = d.sign then -d.sign else 0) = d.sign * ((k : Int) - m) := by
  cases d <;> simp only [Side.sign_left, Side.sign_right] at hb ⊢ <;> omega

theorem balance_bounds (c : Prop) [Decidable c] (d : Side) {b : Int} (hb : b = d.sign ∨ b = -d.sign) :
    -1 ≤ (if c then b else 0) ∧ (if c then b else 0) ≤ 1 := by
  have hsign : d.sign = -1 ∨ d.sign = 1 := by cases d <;> simp
  split <;> omega

/-- Rebalancing from a subtree that has become higher by one. -/
inductive Grown : AvlTree α → List (Above α) → AvlTree α → Prop
  /-- The whole tree has become higher. -/
  | root (t : AvlTree α) : Grown t [] t
  /-- The node above was lower on this side. -/
  | absorbed {t : AvlTree α} {f : Above α} {p : List (Above α)} (hb : f.balance = -f.side.sign) :
      Grown t (f :: p) (plug (attach (f.weigh 0) t) p)
  /-- The node above was even. -/
  | further {t T : AvlTree α} {f : Above α} {p : List (Above α)} (hb : f.balance = 0)
      (h : Grown (attach (f.weigh f.side.sign) t) p T) : Grown t (f :: p) T
  /-- A single rotation. -/
  | single (d : Side) (x y s : AvlTree α) (a e : α) (p : List (Above α)) :
      Grown (join d x a d.sign y) (⟨d, e, d.sign, s⟩ :: p)
        (plug (join d x a 0 (join d y e 0 s)) p)
  /-- A double rotation. -/
  | double (d : Side) (x y z s : AvlTree α) (a c e : α) (b : Int) (p : List (Above α)) :
      Grown (join d x a (-d.sign) (join d z c b y)) (⟨d, e, d.sign, s⟩ :: p)
        (plug (join d (join d x a (if b = -d.sign then d.sign else 0) z) c 0
          (join d y e (if b = d.sign then -d.sign else 0) s)) p)

namespace Grown

variable {t T : AvlTree α} {p : List (Above α)} {n : Nat}

theorem entries (h : Grown t p T) : T.entries = (plug t p).entries := by
  induction h with
  | root t => rfl
  | @absorbed t f p _ => simp [attach, Above.weigh]
  | @further t T f p _ _ ih => simpa [attach, Above.weigh] using ih
  | single d x y s a e p | double d x y z s a c e b p => cases d <;> simp [attach, Side.line]

theorem eq_of_nil (h : Grown t [] T) : T = t := by
  cases h
  rfl

theorem of_even {f : Above α} (h : Grown t (f :: p) T) (hb : f.balance = 0) :
    Grown (attach (f.weigh f.side.sign) t) p T := by
  cases h with
  | absorbed hb' =>
    rw [hb', ← Side.sign_other] at hb
    exact absurd hb f.side.other.sign_ne_zero
  | further _ h => exact h
  | single d x y s a e p | double d x y z s a c e b p => exact absurd hb d.sign_ne_zero

/-- The tree is balanced afterwards, if it was before. -/
theorem balanced (h : Grown t p T) (ht : t.Balanced) (hheight : t.height = n + 1)
    (hfits : Fits p n) : T.Balanced := by
  induction h generalizing n with
  | root t => exact ht
  | @absorbed t f p hb =>
    obtain ⟨hbalance, hlow, hhigh, hs, hfits⟩ := hfits
    have hlower : f.sibling.height = n + 1 := by
      cases hd : f.side <;> simp [hd] at hb hbalance <;> omega
    refine (balanced_plug _ p).mpr ⟨?_, ?_⟩
    · rw [attach, balanced_join]
      simp [Above.weigh, ht, hs, hheight, hlower]
    · simpa [Above.weigh, hheight, hlower] using hfits
  | @further t T f p hb _ ih =>
    obtain ⟨hbalanced, hheight', hfits'⟩ := attach_higher hb ht hheight hfits
    exact ih hbalanced hheight' hfits'
  | single d x y s a e p =>
    obtain ⟨hbalance, hlow, hhigh, hs, hfits⟩ := hfits
    rw [balanced_join] at ht
    obtain ⟨hab, _, _, hx, hy⟩ := ht
    simp only [height_join] at hheight
    have hheights : x.height = n ∧ y.height + 1 = n ∧ s.height + 1 = n := by
      cases d <;> simp at hab hbalance <;> omega
    obtain ⟨hxn, hyn, hsn⟩ := hheights
    refine (balanced_plug _ p).mpr ⟨?_, ?_⟩
    · rw [balanced_join, balanced_join]
      refine ⟨?_, by decide, by decide, hx, ?_, by decide, by decide, hy, hs⟩
      all_goals cases d <;> simp <;> omega
    · convert hfits using 1
      simp only [height_join]
      omega
  | double d x y z s a c e b p =>
    obtain ⟨hbalance, hlow, hhigh, hs, hfits⟩ := hfits
    rw [balanced_join, balanced_join] at ht
    obtain ⟨hab, _, _, hx, hcb, hcl, hch, hz, hy⟩ := ht
    simp only [height_join] at hheight hab
    have hheights : x.height + 1 = n ∧ max z.height y.height + 1 = n ∧ s.height + 1 = n := by
      cases d <;> simp at hab hbalance <;> omega
    obtain ⟨hxn, hzyn, hsn⟩ := hheights
    have hxs : x.height = s.height := by omega
    have hleft : max x.height z.height = x.height := Nat.max_eq_left (by omega)
    have hright : max y.height s.height = s.height := Nat.max_eq_right (by omega)
    obtain ⟨hnear, hfar⟩ := split_balances (m := x.height) hcb hcl hch (by omega)
    obtain ⟨hnl, hnh⟩ := balance_bounds (b = -d.sign) d (.inl rfl)
    obtain ⟨hfl, hfh⟩ := balance_bounds (b = d.sign) d (.inr rfl)
    refine (balanced_plug _ p).mpr ⟨?_, ?_⟩
    · rw [balanced_join, balanced_join, balanced_join]
      refine ⟨?_, by decide, by decide, ⟨hnear, hnl, hnh, hx, hz⟩, hxs ▸ hfar, hfl, hfh, hy, hs⟩
      simp only [height_join]
      rw [hleft, hright, hxs, Int.sub_self, Int.mul_zero]
    · convert hfits using 1
      simp only [height_join]
      rw [hleft, hright, hxs, Nat.max_self, ← hsn, Nat.max_eq_left (Nat.le_succ _)]

/-- A node that is too heavy on one side has what a rotation needs. -/
theorem exists_rotation {f : Above α} (ht : t.Balanced) (hheight : t.height = n + 1)
    (hfits : Fits (f :: p) n) (hgrew : t.balance ≠ 0 ∨ n = 0) (hb : f.balance = f.side.sign) :
    (∃ x a y, t = join f.side x a f.side.sign y) ∨
      ∃ x a z c b y, t = join f.side x a (-f.side.sign) (join f.side z c b y) := by
  obtain ⟨hbalance, _, _, _, _⟩ := hfits
  obtain ⟨x, a, y, heq⟩ := exists_join f.side (ne_nil_of_height (t := t) (by omega))
  generalize t.balance = b at heq hgrew
  subst heq
  have hn : n ≠ 0 := by
    rintro rfl
    cases hd : f.side <;> simp [hd] at hb hbalance <;> omega
  rw [balanced_join] at ht
  obtain ⟨hab, hlow, hhigh, _, _⟩ := ht
  obtain ⟨e, rfl⟩ := Side.exists_sign hlow hhigh (hgrew.resolve_right hn)
  obtain rfl | rfl := f.side.eq_or_eq_other e
  · exact .inl ⟨x, a, y, rfl⟩
  · have hy : 0 < y.height := by
      rw [Side.sign_other] at hab
      cases hd : f.side <;> simp [hd] at hab <;> omega
    obtain ⟨z, c, w, heq⟩ := exists_join f.side (ne_nil_of_height hy)
    exact .inr ⟨x, a, z, c, y.balance, w, by rw [Side.sign_other, ← heq]⟩

end Grown

/-- Rebalancing from a subtree that has become lower by one. -/
inductive Shrunk : AvlTree α → List (Above α) → AvlTree α → Prop
  /-- The whole tree has become lower. -/
  | root (t : AvlTree α) : Shrunk t [] t
  /-- The node above was even. -/
  | lighter {t : AvlTree α} {f : Above α} {p : List (Above α)} (hb : f.balance = 0) :
      Shrunk t (f :: p) (plug (attach (f.weigh (-f.side.sign)) t) p)
  /-- The node above was higher on this side. -/
  | further {t T : AvlTree α} {f : Above α} {p : List (Above α)} (hb : f.balance = f.side.sign)
      (h : Shrunk (attach (f.weigh 0) t) p T) : Shrunk t (f :: p) T
  /-- A single rotation that leaves the height. -/
  | single (d : Side) (t y z : AvlTree α) (a e : α) (p : List (Above α)) :
      Shrunk t (⟨d, e, -d.sign, join d y a 0 z⟩ :: p)
        (plug (join d (join d t e (-d.sign) y) a d.sign z) p)
  /-- A single rotation. -/
  | lower (d : Side) (t y z : AvlTree α) (a e : α) (p : List (Above α)) {T : AvlTree α}
      (h : Shrunk (join d (join d t e 0 y) a 0 z) p T) :
      Shrunk t (⟨d, e, -d.sign, join d y a (-d.sign) z⟩ :: p) T
  /-- A double rotation. -/
  | double (d : Side) (t x y z : AvlTree α) (a c e : α) (b : Int) (p : List (Above α))
      {T : AvlTree α}
      (h : Shrunk (join d (join d t e (if b = -d.sign then d.sign else 0) x) c 0
        (join d y a (if b = d.sign then -d.sign else 0) z)) p T) :
      Shrunk t (⟨d, e, -d.sign, join d (join d x c b y) a d.sign z⟩ :: p) T

namespace Shrunk

variable {t T : AvlTree α} {p : List (Above α)} {n : Nat}

theorem entries (h : Shrunk t p T) : T.entries = (plug t p).entries := by
  induction h with
  | root t => rfl
  | @lighter t f p _ => simp [attach, Above.weigh]
  | @further t T f p _ _ ih => simpa [attach, Above.weigh] using ih
  | single d t y z a e p => cases d <;> simp [attach, Side.line]
  | lower d t y z a e p _ ih | double d t x y z a c e b p _ ih =>
    rw [ih]
    cases d <;> simp [attach, Side.line]

section Rotations

variable {d : Side} {x y z : AvlTree α} {a c e : α} {b : Int}

/-- A single rotation that leaves the height. -/
theorem rotate_single (hfits : Fits (⟨d, e, -d.sign, join d y a 0 z⟩ :: p) (t.height + 1)) :
    (t.Balanced → (join d (join d t e (-d.sign) y) a d.sign z).Balanced) ∧
      Fits p (join d (join d t e (-d.sign) y) a d.sign z).height := by
  obtain ⟨hbalance, hlow, hhigh, hs, hfits⟩ := hfits
  rw [balanced_join] at hs
  obtain ⟨hab, _, _, hy, hz⟩ := hs
  simp only [height_join] at hbalance hfits
  have hheights : y.height = t.height + 1 ∧ z.height = t.height + 1 := by
    cases d <;> simp at hab hbalance <;> omega
  obtain ⟨hyn, hzn⟩ := hheights
  refine ⟨fun ht => ?_, ?_⟩
  · rw [balanced_join, balanced_join]
    simp only [height_join]
    refine ⟨?_, ?_, ?_, ⟨?_, ?_, ?_, ht, hy⟩, hz⟩
    all_goals cases d <;> simp <;> omega
  · convert hfits using 1
    simp only [height_join]
    omega

/-- A single rotation. -/
theorem rotate_lower (hfits : Fits (⟨d, e, -d.sign, join d y a (-d.sign) z⟩ :: p) (t.height + 1)) :
    (t.Balanced → (join d (join d t e 0 y) a 0 z).Balanced) ∧
      Fits p ((join d (join d t e 0 y) a 0 z).height + 1) := by
  obtain ⟨hbalance, hlow, hhigh, hs, hfits⟩ := hfits
  rw [balanced_join] at hs
  obtain ⟨hab, _, _, hy, hz⟩ := hs
  simp only [height_join] at hbalance hfits
  have hheights : y.height = t.height ∧ z.height = t.height + 1 := by
    cases d <;> simp at hab hbalance <;> omega
  obtain ⟨hyn, hzn⟩ := hheights
  refine ⟨fun ht => ?_, ?_⟩
  · rw [balanced_join, balanced_join]
    simp only [height_join]
    refine ⟨?_, by decide, by decide, ⟨?_, by decide, by decide, ht, hy⟩, hz⟩
    all_goals cases d <;> simp <;> omega
  · convert hfits using 1
    simp only [height_join]
    omega

/-- A double rotation. -/
theorem rotate_double
    (hfits : Fits (⟨d, e, -d.sign, join d (join d x c b y) a d.sign z⟩ :: p) (t.height + 1)) :
    (t.Balanced → (join d (join d t e (if b = -d.sign then d.sign else 0) x) c 0
      (join d y a (if b = d.sign then -d.sign else 0) z)).Balanced) ∧
      Fits p ((join d (join d t e (if b = -d.sign then d.sign else 0) x) c 0
        (join d y a (if b = d.sign then -d.sign else 0) z)).height + 1) := by
  obtain ⟨hbalance, hlow, hhigh, hs, hfits⟩ := hfits
  rw [balanced_join, balanced_join] at hs
  obtain ⟨hab, _, _, ⟨hcb, hcl, hch, hx, hy⟩, hz⟩ := hs
  simp only [height_join] at hab hbalance hfits
  have hheights : max x.height y.height = t.height ∧ z.height = t.height := by
    cases d <;> simp at hab hbalance <;> omega
  obtain ⟨hxyn, hzn⟩ := hheights
  have hleft : max t.height x.height = t.height := Nat.max_eq_left (by omega)
  have hright : max y.height z.height = t.height := hzn ▸ Nat.max_eq_right (by omega)
  obtain ⟨hnear, hfar⟩ := split_balances hcb hcl hch hxyn
  obtain ⟨hnl, hnh⟩ := balance_bounds (b = -d.sign) d (.inl rfl)
  obtain ⟨hfl, hfh⟩ := balance_bounds (b = d.sign) d (.inr rfl)
  refine ⟨fun ht => ?_, ?_⟩
  · rw [balanced_join, balanced_join, balanced_join, hzn]
    refine ⟨?_, by decide, by decide, ⟨hnear, hnl, hnh, ht, hx⟩, hfar, hfl, hfh, hy, hz⟩
    simp only [height_join]
    rw [hleft, hright, Int.sub_self, Int.mul_zero]
  · convert hfits using 1
    simp only [height_join]
    omega

end Rotations

/-- The tree is balanced afterwards, if it was before. -/
theorem balanced (h : Shrunk t p T) (ht : t.Balanced) (hfits : Fits p (t.height + 1)) :
    T.Balanced := by
  induction h with
  | root t => exact ht
  | @lighter t f p hb =>
    obtain ⟨hbalance, hlow, hhigh, hs, hfits⟩ := hfits
    have heven : f.sibling.height = t.height + 1 := by
      cases hd : f.side <;> simp [hd] at hbalance <;> omega
    refine (balanced_plug _ p).mpr ⟨?_, by simpa [Above.weigh, heven] using hfits⟩
    rw [attach, balanced_join]
    simp only [Above.weigh, heven]
    cases f.side
    · exact ⟨by omega, by decide, by decide, ht, hs⟩
    · exact ⟨by omega, by decide, by decide, ht, hs⟩
  | further hb _ ih => exact ih ((attach_lower hb hfits).1 ht) (attach_lower hb hfits).2
  | single d t y z a e p =>
    exact (balanced_plug _ p).mpr ⟨(rotate_single hfits).1 ht, (rotate_single hfits).2⟩
  | lower d t y z a e p _ ih => exact ih ((rotate_lower hfits).1 ht) (rotate_lower hfits).2
  | double d t x y z a c e b p _ ih =>
    exact ih ((rotate_double hfits).1 ht) (rotate_double hfits).2

/-- A node that is too heavy on the other side has what a rotation needs. -/
theorem exists_rotation {f : Above α} (hfits : Fits (f :: p) (n + 1))
    (hb : f.balance = -f.side.sign) :
    (∃ x c b y a z, f.sibling = join f.side (join f.side x c b y) a f.side.sign z) ∨
      ∃ y a b z, f.sibling = join f.side y a b z ∧ b ≠ f.side.sign ∧
        (b = 0 ∨ b = -f.side.sign) := by
  obtain ⟨hbalance, _, _, hs, _⟩ := hfits
  have hhigher : f.sibling.height = n + 2 := by
    cases hd : f.side <;> simp [hd] at hb hbalance <;> omega
  obtain ⟨y, a, z, heq⟩ := exists_join f.side (ne_nil_of_height (t := f.sibling) (by omega))
  generalize f.sibling.balance = b at heq
  rw [heq] at hs hhigher ⊢
  obtain ⟨hab, hlow, hhigh, _, _⟩ := (balanced_join ..).mp hs
  by_cases hbd : b = f.side.sign
  · subst hbd
    rw [height_join] at hhigher
    have hy : 0 < y.height := by
      cases hd : f.side <;> simp [hd] at hab <;> omega
    obtain ⟨x, c, w, heq⟩ := exists_join f.side (ne_nil_of_height hy)
    exact .inl ⟨x, c, y.balance, w, a, z, by rw [← heq]⟩
  · refine .inr ⟨y, a, b, z, rfl, hbd, ?_⟩
    cases hd : f.side <;> simp [hd] at hbd ⊢ <;> omega

end Shrunk

/-- The first tree is a subtree of the second. -/
def Sub (s : AvlTree α) : AvlTree α → Prop
  | nil => s = nil
  | node l a b r => s = node l a b r ∨ Sub s l ∨ Sub s r

/-- It is one below the root. -/
def Below (s : AvlTree α) : AvlTree α → Prop
  | nil => False
  | node l _ _ r => Sub s l ∨ Sub s r

/-- It is one below a child of the root. -/
def Deep (s : AvlTree α) : AvlTree α → Prop
  | nil => False
  | node l _ _ r => Below s l ∨ Below s r

section Sub

variable {s t T x y : AvlTree α} {d : Side} {a : α} {b : Int} {p : List (Above α)}

theorem sub_refl (t : AvlTree α) : Sub t t := by
  cases t with
  | nil => rfl
  | node l a b r => exact .inl rfl

@[simp] theorem sub_join : Sub s (join d x a b y) ↔ s = join d x a b y ∨ Sub s x ∨ Sub s y := by
  cases d
  · rfl
  · exact or_congr_right or_comm

@[simp] theorem below_join : Below s (join d x a b y) ↔ Sub s x ∨ Sub s y := by
  cases d
  · rfl
  · exact or_comm

@[simp] theorem deep_join : Deep s (join d x a b y) ↔ Below s x ∨ Below s y := by
  cases d
  · rfl
  · exact or_comm

theorem Below.sub (h : Below s t) : Sub s t := by
  cases t with
  | nil => exact h.elim
  | node l a b r => exact .inr h

theorem Deep.below (h : Deep s t) : Below s t := by
  cases t with
  | nil => exact h.elim
  | node l a b r => exact h.imp Below.sub Below.sub

theorem Sub.plug (h : Sub s t) (p : List (Above α)) : Sub s (plug t p) := by
  induction p generalizing t with
  | nil => exact h
  | cons f p ih => exact ih (by simp [attach, h])

theorem Sub.exists_plug (h : Sub s t) : ∃ p, t = AvlTree.plug s p := by
  induction t with
  | nil => exact ⟨[], h.symm⟩
  | node l a b r ihl ihr =>
    obtain rfl | h | h := h
    · exact ⟨[], rfl⟩
    · obtain ⟨p, rfl⟩ := ihl h
      exact ⟨p ++ [⟨.left, a, b, r⟩], by simp [attach, join]⟩
    · obtain ⟨p, rfl⟩ := ihr h
      exact ⟨p ++ [⟨.right, a, b, l⟩], by simp [attach, join]⟩

/-- Rebalancing does not touch what is below the children of where it begins. -/
theorem Grown.sub (h : Grown t p T) (hs : Deep s t) : Sub s T := by
  induction h with
  | root t => exact hs.below.sub
  | absorbed _ => exact Sub.plug (by simp [attach, hs.below.sub]) _
  | further _ _ ih => exact ih (by simp [attach, hs.below])
  | single d x y s' a e p =>
    rw [deep_join] at hs
    refine Sub.plug ?_ p
    obtain hs | hs := hs <;> simp [hs.sub]
  | double d x y z s' a c e b p =>
    rw [deep_join, below_join] at hs
    refine Sub.plug ?_ p
    obtain hs | hs | hs := hs
    · simp [hs.sub]
    · simp [hs]
    · simp [hs]

end Sub

/-- The balances of the nodes above a place, and the sides on which the place is below them. -/
def steps (p : List (Above α)) : List (Int × Int) := p.map fun f => (f.balance, f.side.sign)

/-- The first of the nodes needs a double rotation, if what is below it has become higher on this
side. -/
def Doubles (d : Int) : List (Int × Int) → Prop
  | [] => False
  | (b, e) :: _ => b = e ∧ d ≠ e

/-- A new node at this place, or the one above it, comes up in a double rotation. -/
def Lifts : List (Int × Int) → Prop
  | [] => False
  | (b, d) :: rest => b = 0 ∧ (Doubles d rest ∨
      match rest with
      | [] => False
      | (b', d') :: rest => b' = 0 ∧ Doubles d' rest)

section Places

variable {T x y x' y' : AvlTree α} {d : Side} {a a' : α} {b b' : Int} {f g h : Above α}
  {p : List (Above α)}

theorem join_inj : join d x a b y = join d x' a' b' y' ↔ x = x' ∧ a = a' ∧ b = b' ∧ y = y' := by
  cases d
  · simp only [join, node.injEq]
  · simp only [join, node.injEq]
    tauto

theorem leaf_eq_join (d : Side) (a : α) : leaf a = join d nil a 0 nil := by
  cases d <;> rfl

theorem join_sign_inj {e : Side} (heq : join d x a d.sign y = join e x' a' e.sign y') :
    d = e ∧ x = x' ∧ a = a' ∧ y = y' := by
  have hbalance := congrArg balance heq
  rw [balance_join, balance_join] at hbalance
  obtain rfl := Side.sign_inj.mp hbalance
  obtain ⟨hx, ha, -, hy⟩ := join_inj.mp heq
  exact ⟨rfl, hx, ha, hy⟩

/-- What becomes of the place of a new node: the node stays there, or there is none, or one of those
above. -/
inductive Settled (a : α) (f : Above α) (p : List (Above α)) (T : AvlTree α) : Prop
  | kept (b : Int) (y : AvlTree α) (hsub : Sub (join f.side (leaf a) f.entry b y) T)
      (hsteps : ¬ Lifts (steps (f :: p)))
  | emptied (b : Int) (y : AvlTree α) (hsub : Sub (join f.side nil f.entry b y) T)
      (hsteps : Lifts (steps (f :: p)))
  | taken (b : Int) (g : Above α) (d : Side) (x y z : AvlTree α) (b' : Int) (hg : g ∈ p)
      (hsub : Sub (join f.side (join d x g.entry b' y) f.entry b z) T)
      (hsteps : Lifts (steps (f :: p)))

@[simp] theorem doubles_nil (d : Int) : ¬ Doubles d (steps ([] : List (Above α))) := not_false

@[simp] theorem doubles_cons :
    Doubles d.sign (steps (f :: p)) ↔ f.balance = f.side.sign ∧ d ≠ f.side :=
  and_congr_right' Side.sign_inj.not

@[simp] theorem lifts_cons : Lifts (steps (f :: p)) ↔ f.balance = 0 ∧
    (Doubles f.side.sign (steps p) ∨ ∃ g q, p = g :: q ∧ g.balance = 0 ∧
      Doubles g.side.sign (steps q)) := by
  refine and_congr_right fun _ => or_congr_right ?_
  cases p with
  | nil => simp [steps]
  | cons g p => simp [steps]

/-- Where the third node above a new one is reached, its place has not changed, or it is that of the
node that comes up. -/
theorem Grown.settled_third (hgrown : Grown (attach (g.weigh g.side.sign)
    (attach (f.weigh f.side.sign) (leaf a))) (h :: p) T) (hf : f.balance = 0) (hg : g.balance = 0) :
    Settled a f (g :: h :: p) T := by
  have hlifts : Lifts (steps (f :: g :: h :: p)) ↔ h.balance = h.side.sign ∧ g.side ≠ h.side := by
    simp [hf, hg, eq_comm (a := (0 : Int)), g.side.sign_ne_zero]
  generalize ht : attach (g.weigh g.side.sign) (attach (f.weigh f.side.sign) (leaf a)) = t at hgrown
  cases hgrown with
  | absorbed hb =>
    refine .kept f.side.sign f.sibling (Sub.plug ?_ p) ?_
    · simp [attach, Above.weigh, ← ht]
    · simp [hlifts, hb, h.side.sign_ne_neg.symm]
  | further hb hrest =>
    refine .kept f.side.sign f.sibling (hrest.sub ?_) ?_
    · simp [attach, Above.weigh, ← ht]
    · simp [hlifts, hb, h.side.sign_ne_zero.symm]
  | single d x y s a' e p =>
    obtain ⟨hside, rfl, -⟩ : g.side = d ∧ _ := join_sign_inj ht
    refine .kept f.side.sign f.sibling (Sub.plug ?_ p) ?_
    · simp [attach, Above.weigh]
    · simp [hlifts, hside]
  | double d x y z s a' c e b p =>
    rw [← Side.sign_other, ← join_other] at ht
    obtain ⟨hside, hinner, rfl, -⟩ : g.side = d.other ∧ _ := join_sign_inj ht
    have hsteps : Lifts (steps (f :: g :: ⟨d, e, d.sign, s⟩ :: p)) := by
      simp [hlifts, hside]
    obtain ⟨side, c', _, w⟩ := f
    obtain rfl | rfl := d.eq_or_eq_other side
    · -- The new node goes over to the node on its side.
      obtain ⟨rfl, rfl, -, -⟩ := join_inj.mp hinner
      exact .taken _ g _ _ _ _ _ mem_cons_self (Sub.plug (sub_refl _) p) hsteps
    · rw [attach, Above.weigh, join_other] at hinner
      obtain ⟨-, rfl, -, rfl⟩ := join_inj.mp hinner
      rw [← join_other d (join d (leaf a) e _ s)]
      exact .taken _ ⟨d, e, d.sign, s⟩ _ _ _ _ _ (by simp) (Sub.plug (sub_refl _) p) hsteps

/-- Where the second node above a new one is reached, the new one is still at its place, unless it
comes up itself. -/
theorem Grown.settled_second (hgrown : Grown (attach (f.weigh f.side.sign) (leaf a)) (g :: p) T)
    (hf : f.balance = 0) : Settled a f (g :: p) T := by
  have hlifts (hg : g.balance ≠ 0) :
      Lifts (steps (f :: g :: p)) ↔ g.balance = g.side.sign ∧ f.side ≠ g.side := by
    simp [hf, hg]
  generalize ht : attach (f.weigh f.side.sign) (leaf a) = t at hgrown
  cases hgrown with
  | absorbed hb =>
    refine .kept f.side.sign f.sibling (Sub.plug ?_ p) ?_
    · simp [attach, Above.weigh, ← ht]
    · have hg : g.balance ≠ 0 := by simp [hb, g.side.sign_ne_zero]
      simp [hlifts hg, hb, g.side.sign_ne_neg.symm]
  | further hb hrest =>
    subst ht
    cases p with
    | nil =>
      obtain rfl := hrest.eq_of_nil
      refine .kept f.side.sign f.sibling (by simp [attach, Above.weigh]) ?_
      simp [hb, g.side.sign_ne_zero.symm]
    | cons h p => exact hrest.settled_third hf hb
  | single d x y s a' e p =>
    obtain ⟨hside, rfl, rfl, -⟩ : f.side = d ∧ _ := join_sign_inj ht
    refine .kept 0 (join d y e 0 s) (Sub.plug ?_ p) ?_
    · rw [hside]
      exact sub_refl _
    · simp [hlifts d.sign_ne_zero, hside]
  | double d x y z s a' c e b p =>
    rw [← Side.sign_other, ← join_other] at ht
    obtain ⟨hside, hinner, rfl, rfl⟩ : f.side = d.other ∧ _ := join_sign_inj ht
    obtain ⟨rfl, -, -, -⟩ := join_inj.mp ((leaf_eq_join d a).symm.trans hinner)
    refine .emptied (if b = -d.sign then d.sign else 0) f.sibling (Sub.plug ?_ p) ?_
    · rw [hside, join_other]
      simp [Above.weigh]
    · simp [hlifts d.sign_ne_zero, hside]

/-- What becomes of the place of a new node. -/
theorem Grown.settled (hgrown : Grown (leaf a) (f :: p) T) : Settled a f p T := by
  generalize ht : leaf a = t at hgrown
  cases hgrown with
  | absorbed hb =>
    refine .kept 0 f.sibling (Sub.plug ?_ p) ?_
    · rw [← ht]
      exact sub_refl _
    · simp [hb, f.side.sign_ne_zero]
  | further hb hrest =>
    subst ht
    cases p with
    | nil =>
      obtain rfl := hrest.eq_of_nil
      exact .kept f.side.sign f.sibling (sub_refl _) (by simp)
    | cons g p => exact hrest.settled_second hb
  | single d x y s a' e p =>
    have hbalance := congrArg balance ht
    rw [balance_join] at hbalance
    exact absurd hbalance d.sign_ne_zero.symm
  | double d x y z s a' c e b p =>
    have hbalance := congrArg balance ht
    rw [balance_join, ← Side.sign_other] at hbalance
    exact absurd hbalance d.other.sign_ne_zero.symm

end Places

end AvlTree
