import Drt.Core.Atomic.Lockp
import Mathlib.Control.Monad.Basic

/-!
# Conditional pointer locks

A word may say that it is locked for each use of its pointer, by a mark in its tag. The operations
on such words are there twice, inline and out of line, and where the inline one meets the word locked
it goes on with the other one. Other threads change the word between any two accesses to it, so that
each access of a call meets any word at all.
-/

namespace Drt

namespace Lockp

open TagBits

/-- A word that is shared with other threads, and what a call does. -/
structure CondWord where
  /-- The words that the accesses meet, one after the other. -/
  met : Nat → UInt64
  /-- The call has to wait where it takes the lock. -/
  waits : Bool
  accesses : Nat
  /-- The word that was met last. -/
  found : UInt64
  /-- What the last access has left. -/
  word : UInt64
  /-- The addresses where `Atomic::inc` was called. -/
  counted : List UInt64
  /-- The memory that was copied, by address and size. -/
  copied : List (UInt64 × Nat)

/-- Code of an operation. -/
abbrev CondOp (α : Type) := StateM CondWord α

/-- `*ptr`. -/
def readWord : CondOp UInt64 := fun s =>
  let val := s.met s.accesses
  (val, { s with accesses := s.accesses + 1, found := val, word := val })

/-- `*ptr = newval`. -/
def storeWord (newval : UInt64) : CondOp Unit := fun s =>
  ((), { s with accesses := s.accesses + 1, word := newval })

/-- `Atomic::cmpxchg`. -/
def cmpxchg (cmpval newval : UInt64) : CondOp Bool := fun s =>
  let val := s.met s.accesses
  (decide (val = cmpval),
    { s with
      accesses := s.accesses + 1
      found := val
      word := if val = cmpval then newval else val })

/-- `lock` and `i_lock`, by the access that takes the lock: the word is unlocked then. -/
def lockWord : CondOp UInt64 := fun s =>
  let val := s.met s.accesses &&& ~~~1
  (val,
    { s with
      accesses := s.accesses + 1
      found := val
      word := (val &&& ~~~3) ||| (if s.waits then 1 else 3) })

/-- `i_unlock` of a word that the call has locked. -/
def i_unlock (newval : UInt64) : CondOp Unit := storeWord newval

/-- `Atomic::inc` of a reference count. -/
def inc (addr : UInt64) : CondOp Unit := fun s => ((), { s with counted := s.counted ++ [addr] })

/-- Memory of this size is copied from an address. -/
def copy (addr : UInt64) (size : Nat) : CondOp Unit := fun s =>
  ((), { s with copied := s.copied ++ [(addr, size)] })

/-- `p_clock`, with `*locked`. -/
def p_clock : CondOp (UInt64 × Bool) := do
  let ret ← readWord
  if ret &&& 3 = 0 then pure (ret, false)
  else do
    let ret := ret ||| 3
    if ← cmpxchg (ret - 1) ret then pure (ret - 3, true)
    else do
      let ret ← lockWord
      if ret &&& 2 ≠ 0 then pure (ret - 2, true) else pure (ret, false)

/-- `i_clock`, with `*locked`. -/
def i_clock : CondOp (UInt64 × Bool) := do
  let ret ← readWord
  if ret &&& 3 = 0 then pure (ret, false)
  else do
    let ret := ret ||| 3
    if ← cmpxchg (ret - 1) ret then pure (ret - 3, true)
    else p_clock

def p_cxchg (newval : UInt64) : CondOp UInt64 := do
  let old ← readWord
  if old &&& 3 = 0 then do
    storeWord newval
    pure old
  else do
    let old := (old ||| 3) - 1
    if ← cmpxchg old (newval + 2) then pure (old - 2)
    else do
      let old ← lockWord
      if old &&& 2 ≠ 0 then do
        i_unlock (newval + 2)
        pure (old - 2)
      else do
        i_unlock newval
        pure old

def i_cxchg (newval : UInt64) : CondOp UInt64 := do
  let old ← readWord
  if old &&& 3 = 0 then do
    storeWord newval
    pure old
  else do
    let old := (old ||| 3) - 1
    if ← cmpxchg old (newval + 2) then pure (old - 2)
    else p_cxchg newval

def p_cref (ref_offs : UInt64) : CondOp UInt64 := do
  let ret ← readWord
  if ret &&& 3 = 0 then do
    inc (ret + ref_offs)
    pure ret
  else do
    let ret := ret ||| 3
    if ← cmpxchg (ret - 1) ret then do
      let ret := ret - 1
      inc (ret + ref_offs)
      i_unlock ret
      pure (ret - 2)
    else do
      let real ← lockWord
      let ret := real &&& ~~~3
      inc (ret + ref_offs)
      i_unlock real
      pure ret

def i_cref (ref_offs : UInt64) : CondOp UInt64 := do
  let ret ← readWord
  if ret &&& 3 = 0 then do
    inc (ret + ref_offs)
    pure ret
  else do
    let ret := ret ||| 3
    if ← cmpxchg (ret - 1) ret then do
      let ret := ret - 1
      inc (ret - 2 + ref_offs)
      i_unlock ret
      pure (ret - 2)
    else p_cref ref_offs

/-- `p_crefc`, with `*refed`. -/
def p_crefc (ref_offs : UInt64) : CondOp (UInt64 × Bool) := do
  let ret ← readWord
  if ret &&& 3 = 0 then pure (ret, false)
  else do
    let ret := ret ||| 3
    if ← cmpxchg (ret - 1) ret then do
      let ret := ret - 1
      inc (ret - 2 + ref_offs)
      i_unlock ret
      pure (ret - 2, true)
    else do
      let real ← lockWord
      if real &&& 2 ≠ 0 then do
        let ret := real - 2
        inc ret
        i_unlock real
        pure (ret, true)
      else do
        i_unlock real
        pure (real, false)

/-- `i_crefc`, with `*refed`. -/
def i_crefc (ref_offs : UInt64) : CondOp (UInt64 × Bool) := do
  let ret ← readWord
  if ret &&& 3 = 0 then pure (ret, false)
  else do
    let ret := ret ||| 3
    if ← cmpxchg (ret - 1) ret then do
      let ret := ret - 1
      inc (ret - 2 + ref_offs)
      i_unlock ret
      pure (ret - 2, true)
    else p_crefc ref_offs

/-- `p_cmem`, which is there for sizes of 1, 4 and 8. -/
def p_cmem (size : Nat) (t_offs : UInt64) : CondOp Unit := do
  let addr ← readWord
  if addr &&& 3 = 0 then copy (addr + t_offs) size
  else do
    let addr := addr ||| 3
    if ← cmpxchg (addr - 1) addr then do
      let addr := addr - 1
      copy (addr - 2 + t_offs) size
      i_unlock addr
    else do
      let addr ← lockWord
      copy ((addr &&& ~~~3) + t_offs) size
      i_unlock addr

def i_cmem (size : Nat) (t_offs : UInt64) : CondOp Unit := do
  let addr ← readWord
  if addr &&& 3 = 0 then copy (addr + t_offs) size
  else do
    let addr := addr ||| 3
    if ← cmpxchg (addr - 1) addr then do
      let addr := addr - 1
      copy (addr - 2 + t_offs) size
      i_unlock addr
    else p_cmem size t_offs

/-! ### What is due -/

/-- The state of a word, by its tag. -/
inductive WordTag where
  | plain
  | conditional
  | locked
  deriving DecidableEq, Repr

/-- The word without its tag. -/
def pointerOf (w : UInt64) : UInt64 := w &&& ~~~3

/-- The tag of a word. -/
def tagOf (w : UInt64) : WordTag :=
  if w &&& 1 ≠ 0 then .locked else if w &&& 2 ≠ 0 then .conditional else .plain

/-- Locking applies to a word that is not locked. -/
def marked (w : UInt64) : Bool := w &&& 2 ≠ 0

/-- What a call has done: what it returns, what it says about locking, what it has counted and
copied, and the word that it leaves. -/
structure CondEffect where
  ret : Option UInt64
  decision : Option Bool
  counted : List UInt64
  copied : List (UInt64 × Nat)
  pointer : UInt64
  tag : WordTag
  deriving DecidableEq, Repr

/-- A call of an operation. A pointer that is stored has no tag. -/
inductive CondCall where
  | clock
  | cxchg (newval : UInt64) (untagged : Untagged newval)
  | cref (ref_offs : UInt64)
  | crefc (ref_offs : UInt64)
  | cmem (size : Nat) (t_offs : UInt64)

namespace CondCall

/-- The code of a call, inline or out of line. -/
def code (inline : Bool) : CondCall → CondOp (Option UInt64 × Option Bool)
  | clock => do
    let (ret, locked) ← if inline then i_clock else p_clock
    pure (some ret, some locked)
  | cxchg newval _ => do
    let old ← if inline then i_cxchg newval else p_cxchg newval
    pure (some old, none)
  | cref ref_offs => do
    let ret ← if inline then i_cref ref_offs else p_cref ref_offs
    pure (some ret, none)
  | crefc ref_offs => do
    let (ret, refed) ← if inline then i_crefc ref_offs else p_crefc ref_offs
    pure (some ret, some refed)
  | cmem size t_offs => do
    if inline then i_cmem size t_offs else p_cmem size t_offs
    pure (none, none)

/-- What is due for a word that is met unlocked. -/
def due (w : UInt64) : CondCall → CondEffect
  | clock => ⟨some (pointerOf w), some (marked w), [], [], pointerOf w,
      if marked w then .locked else .plain⟩
  | cxchg newval _ => ⟨some (pointerOf w), none, [], [], newval, tagOf w⟩
  | cref ref_offs => ⟨some (pointerOf w), none, [pointerOf w + ref_offs], [], pointerOf w, tagOf w⟩
  | crefc ref_offs => ⟨some (pointerOf w), some (marked w),
      if marked w then [pointerOf w + ref_offs] else [], [], pointerOf w, tagOf w⟩
  | cmem size t_offs => ⟨none, none, [], [(pointerOf w + t_offs, size)], pointerOf w, tagOf w⟩

/-- What the code has done. -/
def effect (r : (Option UInt64 × Option Bool) × CondWord) : CondEffect :=
  ⟨r.1.1, r.1.2, r.2.counted, r.2.copied, pointerOf r.2.word, tagOf r.2.word⟩

/-- The code does what is due for the word that its last access to the old one has met. -/
def Right (call : CondCall) (inline : Bool) (s : CondWord) : Prop :=
  effect (call.code inline s) = call.due (call.code inline s).2.found

end CondCall

/-- The word is marked and not locked any more when it is to be exchanged. -/
def Exchanges (s : CondWord) : Prop :=
  s.met s.accesses &&& 3 ≠ 0 ∧ s.met (s.accesses + 1) = (s.met s.accesses ||| 3) - 1

/-- The exchange fails. -/
def Fails (s : CondWord) : Prop :=
  s.met s.accesses &&& 3 ≠ 0 ∧ s.met (s.accesses + 1) ≠ (s.met s.accesses ||| 3) - 1

namespace CondCall

/-- Where the lock is taken, a report of it is right for a marked word only, and a count that is made
for a marked word only has no offset. -/
def LocksRightly (m : UInt64) : CondCall → Prop
  | clock => m &&& 2 ≠ 0
  | crefc ref_offs => m &&& 2 = 0 ∨ ref_offs = 0
  | _ => True

/-- Out of line, a reference count is counted at the wrong address where the word is exchanged, and
the lock has to be taken rightly. -/
def SafeOutOfLine (call : CondCall) (s : CondWord) : Prop :=
  (Exchanges s → ∀ ref_offs, call ≠ .cref ref_offs) ∧
    (Fails s → call.LocksRightly (s.met (s.accesses + 2)))

/-- Inline code goes on out of line where the exchange fails. -/
def Safe (call : CondCall) : Bool → CondWord → Prop
  | false, s => call.SafeOutOfLine s
  | true, s => Fails s → call.SafeOutOfLine { s with accesses := s.accesses + 2 }

end CondCall

/-! ### Tags -/

variable {w : UInt64}

section Untagged

variable (h : Untagged w)

include h

end Untagged

section Apply

variable {α β : Type} (s : CondWord) (x : CondOp α) (f : α → CondOp β) (a : α)

@[simp] theorem pure_apply : (pure a : CondOp α) s = (a, s) := rfl

@[simp] theorem bind_apply : (x >>= f) s = f (x s).1 (x s).2 := rfl

@[simp] theorem map_apply (g : α → β) : (g <$> x) s = (g (x s).1, (x s).2) := rfl

@[simp] theorem ite_apply (c : Prop) [Decidable c] (x y : CondOp α) :
    (if c then x else y) s = if c then x s else y s := by
  split_ifs <;> rfl

end Apply

namespace CondCall

variable {s : CondWord} (call : CondCall) (hcounted : s.counted = []) (hcopied : s.copied = [])

include hcounted hcopied

end CondCall

/-- A call begins. -/
def start (met : Nat → UInt64) (waits : Bool) : CondWord where
  met := met
  waits := waits
  accesses := 0
  found := 0
  word := 0
  counted := []
  copied := []

instance (call : CondCall) (inline : Bool) (s : CondWord) : Decidable (call.Right inline s) :=
  inferInstanceAs (Decidable (_ = _))

end Lockp

end Drt
