import Drt.Util.FileWriter
import Mathlib.Data.List.Perm.Basic

/-!
# File transactions

A generator writes its files through a transaction: `createTruncated` writes to a temporary
file, that is renamed when it is closed, and `updateChanged` to a string, that goes to the
file when it is closed and differs. `rollback` unlinks the files of the first kind.
-/

open List Option

namespace Drt

/-- What `rollback` is to do. -/
inductive OpKind where
  | rm
  | update
  deriving DecidableEq, Repr

/-- An operation of a transaction, with its writer as long as it is open. -/
structure FileOp where
  op : OpKind
  fname : String
  fd : Option Nat
  deriving DecidableEq, Repr

/-- `TMP_SUFFIX`. -/
def tmpName (fname : String) : String := fname ++ ".tmp"

theorem tmpName_ne (fname : String) : tmpName fname ≠ fname := by
  intro h
  have hlength := congrArg String.length h
  unfold tmpName at hlength
  rw [String.length_append] at hlength
  exact absurd hlength (by simp)

/-- A transaction, with the file system and the writers that it hands out. -/
structure FileTransaction where
  fs : FileSystem
  writers : Nat → FileWriter
  /-- The number of writers that have been made. -/
  fds : Nat
  opers : List FileOp

namespace FileTransaction

def new (fs : FileSystem) : FileTransaction := ⟨fs, fun _ => .new (.string []), 0, []⟩

/-- A new writer, and the operation that has it open. -/
def push (t : FileTransaction) (op : OpKind) (fname : String) (realfd : RealFd) :
    FileTransaction × Nat :=
  ({ t with
    writers := Function.update t.writers t.fds (.new realfd)
    fds := t.fds + 1
    opers := t.opers ++ [⟨op, fname, some t.fds⟩] }, t.fds)

def createTruncated (t : FileTransaction) (fname : String) : FileTransaction × Nat :=
  let opened := t.fs.openTruncate (tmpName fname)
  { t with fs := opened.1 }.push .rm fname (.file opened.2 0)

def updateChanged (t : FileTransaction) (fname : String) : FileTransaction × Nat :=
  t.push .update fname (.string [])

def print (t : FileTransaction) (fd : Nat) (content : List UInt8) : FileTransaction :=
  { t with writers := Function.update t.writers fd ((t.writers fd).print content) }

/-- What the contexts of a writer do. -/
def edit (t : FileTransaction) (fd : Nat) (pieces : List (List UInt8)) : FileTransaction :=
  { t with writers := Function.update t.writers fd ((t.writers fd).edit pieces) }

/-- `flush` of a writer. -/
def flushFd (t : FileTransaction) (fd : Nat) : FileTransaction :=
  let flushed := (t.writers fd).flush t.fs
  { t with fs := flushed.1, writers := Function.update t.writers fd flushed.2 }

def flush (t : FileTransaction) : FileTransaction :=
  t.opers.foldl (fun t op => op.fd.elim t t.flushFd) t

/-- `undef $op->{fd}`. -/
def undefFd (t : FileTransaction) (fd : Nat) : FileTransaction :=
  { t with opers := t.opers.map fun op => if op.fd = some fd then { op with fd := none } else op }

/-- The last operation that has the writer open; it comes to the front, unless it is at the
end. -/
def takeOp (opers : List FileOp) (fd : Nat) : Option (FileOp × List FileOp) :=
  (opers.reverse.find? fun op => op.fd = some fd).map fun op =>
    (op, if opers.getLast?.any fun op => op.fd = some fd then opers
      else op :: (opers.reverse.eraseP fun op => op.fd = some fd).reverse)

/-- `closeFile`, with what it does to the operation it has found; `none` if it dies. -/
def closeFileBy (closeOp : FileTransaction → FileOp → Nat → FileTransaction)
    (t : FileTransaction) (fd : Nat) : Option FileTransaction :=
  (takeOp t.opers fd).map fun found => closeOp { t with opers := found.2 } found.1 fd

/-- `closeOp` of an operation that writes to a file. -/
def closeRm (t : FileTransaction) (op : FileOp) (fd : Nat) : FileTransaction :=
  let t := (t.flushFd fd).undefFd fd
  { t with fs := t.fs.rename (tmpName op.fname) op.fname }

/-- An update writes its content to the file. -/
def writeChanged (t : FileTransaction) (fname : String) (content : List UInt8) :
    FileTransaction :=
  let created := t.createTruncated fname
  let t := created.1.print created.2 content
  (t.closeFileBy closeRm created.2).getD t

/-- The content of an update that is closed. -/
def updated (t : FileTransaction) (fd : Nat) : List UInt8 := ((t.flushFd fd).writers fd).content

/-- An update that is closed finds another content in the file, or no file. -/
def changed (t : FileTransaction) (op : FileOp) (fd : Nat) : Bool :=
  (t.flushFd fd).fs.read op.fname ≠ some (t.updated fd)

def closeOp (t : FileTransaction) (op : FileOp) (fd : Nat) : FileTransaction :=
  match op.op with
  | .rm => t.closeRm op fd
  | .update =>
    let flushed := t.flushFd fd
    (if t.changed op fd then flushed.writeChanged op.fname (t.updated fd)
      else flushed).undefFd fd

def closeFile (t : FileTransaction) (fd : Nat) : Option FileTransaction :=
  t.closeFileBy closeOp fd

/-- `rollback`, that `DESTROY` calls too. -/
def rollback (t : FileTransaction) : FileTransaction :=
  { t with
    fs := t.opers.foldl (fun fs op => if op.op = .rm then fs.unlink op.fname else fs) t.fs
    opers := [] }

end FileTransaction

/-- The calls of a generator. -/
inductive FileCall where
  | createTruncated (fname : String)
  | updateChanged (fname : String)
  | print (fd : Nat) (content : List UInt8)
  | edit (fd : Nat) (pieces : List (List UInt8))
  | flush
  | closeFile (fd : Nat)

namespace FileTransaction

/-- One call; a `closeFile` that dies leaves the transaction as it is. -/
def call (t : FileTransaction) : FileCall → FileTransaction
  | .createTruncated fname => (t.createTruncated fname).1
  | .updateChanged fname => (t.updateChanged fname).1
  | .print fd content => t.print fd content
  | .edit fd pieces => t.edit fd pieces
  | .flush => t.flush
  | .closeFile fd => (t.closeFile fd).getD t

/-- The file that a call writes by way of a temporary one. -/
def creates (t : FileTransaction) : FileCall → Option String
  | .createTruncated fname => some fname
  | .closeFile fd =>
    (takeOp t.opers fd).bind fun found =>
      if found.1.op = .update ∧ t.changed found.1 fd then some found.1.fname else none
  | _ => none

/-- The calls of a generator up to its failure. -/
def run (t : FileTransaction) (calls : List FileCall) : FileTransaction := calls.foldl call t

end FileTransaction

/-! ### Rolling back a file transaction

A rollback removes the files of `createTruncated` and does nothing else. So it restores the
files exactly if none of them was there before, and if every temporary file has been
renamed. -/

namespace FileTransaction

/-- The same files with the same contents, and no others. -/
def Restores (before after : FileSystem) : Prop := ∀ p, after.read p = before.read p

/-- No call writes to a temporary file whose name was in use before. -/
def TmpFree (before : FileSystem) : FileTransaction → List FileCall → Prop
  | _, [] => True
  | t, call :: calls =>
    (∀ fname ∈ t.creates call, before.names (tmpName fname) = none) ∧
      TmpFree before (t.call call) calls

/-- The files that the rollback removes. -/
def removes (t : FileTransaction) (p : String) : Prop :=
  ∃ op ∈ t.opers, op.op = .rm ∧ op.fname = p

/-- The temporary files of the operations that are open. -/
def writes (t : FileTransaction) (p : String) : Prop :=
  ∃ op ∈ t.opers, op.op = .rm ∧ op.fd.isSome ∧ tmpName op.fname = p

/-- The rollback removes new files only, and all temporary files that are there. -/
structure Undoable (before : FileSystem) (t : FileTransaction) : Prop where
  fresh : ∀ p, t.removes p → before.names p = none
  renamed : ∀ p, t.writes p → t.fs.names p ≠ none → t.removes p

/-- What the calls of a transaction keep, if no temporary name was in use before. -/
structure Inv (before : FileSystem) (t : FileTransaction) : Prop where
  inodes : before.inodes ≤ t.fs.inodes
  /-- A file of before is still there, unless an operation is on it. -/
  kept : ∀ p i, before.names p = some i → t.removes p ∨ t.fs.names p = some i
  data : ∀ i < before.inodes, t.fs.data i = before.data i
  /-- No writer has a file of before open. -/
  opened : ∀ fd i, (t.writers fd).inode = some i → before.inodes ≤ i
  named : ∀ p i, t.fs.names p = some i → before.names p = some i ∨ before.inodes ≤ i
  /-- A new file is the file of an operation, or its temporary file. -/
  made : ∀ p, t.fs.names p ≠ none → before.names p ≠ none ∨ t.removes p ∨ t.writes p
  tmp : ∀ p, t.removes p → before.names (tmpName p) = none
  fds : ∀ op ∈ t.opers, ∀ fd, op.fd = some fd → fd < t.fds
  unique : ∀ op ∈ t.opers, ∀ op' ∈ t.opers, ∀ fd, op.fd = some fd → op'.fd = some fd → op = op'

variable {before : FileSystem} {t t' : FileTransaction}

variable {opers : List FileOp} {p : String}

theorem removes_congr (h : ∀ op, op ∈ opers ↔ op ∈ t.opers) (p : String) :
    ({ t with opers := opers } : FileTransaction).removes p ↔ t.removes p := by
  simp only [removes, h]

theorem writes_congr (h : ∀ op, op ∈ opers ↔ op ∈ t.opers) (p : String) :
    ({ t with opers := opers } : FileTransaction).writes p ↔ t.writes p := by
  simp only [writes, h]

theorem inv_new (before : FileSystem) : Inv before (new before) where
  inodes := Nat.le_refl _
  kept _ _ h := .inr h
  data _ _ := rfl
  opened fd i h := by cases h
  named _ _ h := .inl h
  made _ h := .inl h
  tmp p h := by
    obtain ⟨op, hop, _⟩ := h
    cases hop
  fds op hop := by cases hop
  unique op hop := by cases hop

namespace Inv

section

variable (h : Inv before t)
include h

theorem reorder {opers : List FileOp} (hmem : ∀ op, op ∈ opers ↔ op ∈ t.opers) :
    Inv before { t with opers := opers } where
  inodes := h.inodes
  kept p i hp := (h.kept p i hp).imp (removes_congr hmem p).mpr id
  data := h.data
  opened := h.opened
  named := h.named
  made p hp := (h.made p hp).imp_right
    (Or.imp (removes_congr hmem p).mpr (writes_congr hmem p).mpr)
  tmp p hp := h.tmp p ((removes_congr hmem p).mp hp)
  fds op hop := h.fds op ((hmem op).mp hop)
  unique op hop op' hop' := h.unique op ((hmem op).mp hop) op' ((hmem op').mp hop')

theorem setWriter (fd : Nat) {w : FileWriter} (hw : ∀ i, w.inode = some i → before.inodes ≤ i) :
    Inv before { t with writers := Function.update t.writers fd w } :=
  { h with
    opened := by
      intro fd' i hi
      by_cases hfd : fd' = fd
      · subst hfd
        simp only [Function.update_self] at hi
        exact hw i hi
      · simp only [Function.update_of_ne hfd] at hi
        exact h.opened fd' i hi }

theorem print (fd : Nat) (content : List UInt8) : Inv before (t.print fd content) :=
  h.setWriter fd fun i hi => h.opened fd i (by rwa [FileWriter.inode_print] at hi)

theorem edit (fd : Nat) (pieces : List (List UInt8)) : Inv before (t.edit fd pieces) :=
  h.setWriter fd fun i hi => h.opened fd i (by rwa [FileWriter.inode_edit] at hi)

/-- The contents of the files of before may not change, those of others may. -/
theorem setData {fs : FileSystem} (hnames : fs.names = t.fs.names)
    (hinodes : fs.inodes = t.fs.inodes) (hdata : ∀ i < before.inodes, fs.data i = t.fs.data i) :
    Inv before { t with fs := fs } :=
  { h with
    inodes := hinodes ▸ h.inodes
    kept := by
      intro p i hp
      exact (h.kept p i hp).imp_right fun hname => hnames ▸ hname
    data := fun i hi => (hdata i hi).trans (h.data i hi)
    named := by
      intro p i hp
      exact h.named p i (hnames ▸ hp)
    made := by
      intro p hp
      exact h.made p (hnames ▸ hp) }

theorem flushFd (fd : Nat) : Inv before (t.flushFd fd) := by
  have hfs : Inv before { t with fs := ((t.writers fd).flush t.fs).1 } := by
    refine h.setData (FileWriter.names_flush ..) (FileWriter.inodes_flush ..) fun i hi => ?_
    refine FileWriter.data_flush _ _ fun hinode => ?_
    exact absurd (h.opened fd i hinode) (Nat.not_le.mpr hi)
  exact hfs.setWriter fd fun i hi => h.opened fd i (by rwa [FileWriter.inode_flush] at hi)

theorem flush : Inv before t.flush := by
  have hfold : ∀ (opers : List FileOp) (t : FileTransaction), Inv before t →
      Inv before (opers.foldl (fun t op => op.fd.elim t t.flushFd) t) := by
    intro opers
    induction opers with
    | nil => exact fun t h => h
    | cons op opers ih =>
      intro t h
      have hop : Inv before (op.fd.elim t t.flushFd) := by
        cases op.fd with
        | none => exact h
        | some fd => exact h.flushFd fd
      exact ih _ hop
  exact hfold t.opers t h

/-- A new operation, on a file that has no other temporary file. -/
theorem push (op : OpKind) (fname : String) (realfd : RealFd)
    (hfd : ∀ i, (FileWriter.new realfd).inode = some i → before.inodes ≤ i)
    (htmp : op = .rm → before.names (tmpName fname) = none) :
    Inv before (t.push op fname realfd).1 := by
  have hwriter := h.setWriter t.fds hfd
  have hremoves : ∀ p, (t.push op fname realfd).1.removes p ↔
      t.removes p ∨ (op = .rm ∧ fname = p) := by
    intro p
    simp only [removes, FileTransaction.push, mem_append, mem_singleton, or_and_right,
      exists_or, exists_eq_left]
  have hwrites : ∀ p, t.writes p → (t.push op fname realfd).1.writes p := by
    rintro p ⟨op', hop, hrest⟩
    exact ⟨op', mem_append_left _ hop, hrest⟩
  exact
    { hwriter with
      kept := by
        intro p i hp
        exact (hwriter.kept p i hp).imp_left fun hrm => (hremoves p).mpr (.inl hrm)
      made := by
        intro p hp
        refine (hwriter.made p hp).imp_right (Or.imp (fun hrm => ?_) (hwrites p))
        exact (hremoves p).mpr (.inl hrm)
      tmp := by
        intro p hp
        rcases (hremoves p).mp hp with hrm | ⟨hrm, rfl⟩
        · exact h.tmp p hrm
        · exact htmp hrm
      fds := by
        intro op' hop fd hfd'
        rcases mem_append.mp hop with hop | hop
        · exact Nat.lt_succ_of_lt (h.fds op' hop fd hfd')
        · obtain rfl := mem_singleton.mp hop
          exact Option.some.inj hfd' ▸ Nat.lt_succ_self t.fds
      unique := by
        have hnew : ∀ op' ∈ t.opers, op'.fd ≠ some t.fds := by
          intro op' hop heq
          exact absurd (h.fds op' hop t.fds heq) (Nat.lt_irrefl _)
        intro op₁ h₁ op₂ h₂ fd hfd₁ hfd₂
        rcases mem_append.mp h₁ with h₁ | h₁ <;> rcases mem_append.mp h₂ with h₂ | h₂
        · exact h.unique op₁ h₁ op₂ h₂ fd hfd₁ hfd₂
        · obtain rfl := mem_singleton.mp h₂
          exact absurd (hfd₁.trans hfd₂.symm) (hnew op₁ h₁)
        · obtain rfl := mem_singleton.mp h₁
          exact absurd (hfd₂.trans hfd₁.symm) (hnew op₂ h₂)
        · exact (mem_singleton.mp h₁).trans (mem_singleton.mp h₂).symm }

/-- The file that is opened under a name that was not in use before is a new one. -/
theorem opened_le {p : String} (hfree : before.names p = none) :
    before.inodes ≤ (t.fs.openTruncate p).2 := by
  rcases t.fs.openTruncate_inode p with hname | heq
  · rcases h.named p _ hname with hname' | hle
    · rw [hfree] at hname'
      cases hname'
    · exact hle
  · exact heq ▸ h.inodes

/-- A temporary file may be opened whose operation is there already. -/
theorem openTruncate {p : String} (hfree : before.names p = none) (hwrites : t.writes p) :
    Inv before { t with fs := (t.fs.openTruncate p).1 } where
  inodes := Nat.le_trans h.inodes (t.fs.inodes_openTruncate p)
  kept q i hq := by
    have hne : q ≠ p := by
      rintro rfl
      rw [hfree] at hq
      cases hq
    exact (h.kept q i hq).imp_right fun hname => (t.fs.names_openTruncate_of_ne hne).trans hname
  data i hi := by
    refine (t.fs.data_openTruncate_of_ne p fun heq => ?_).trans (h.data i hi)
    exact absurd (h.opened_le hfree) (heq ▸ Nat.not_le.mpr hi)
  opened := h.opened
  named q i hq := by
    by_cases hne : q = p
    · subst hne
      rw [t.fs.names_openTruncate q] at hq
      exact .inr (Option.some.inj hq ▸ h.opened_le hfree)
    · exact h.named q i ((t.fs.names_openTruncate_of_ne hne).symm.trans hq)
  made q hq := by
    by_cases hne : q = p
    · exact .inr (.inr (hne ▸ hwrites))
    · exact h.made q ((t.fs.names_openTruncate_of_ne hne) ▸ hq)
  tmp := h.tmp
  fds := h.fds
  unique := h.unique

theorem createTruncated {fname : String} (hfree : before.names (tmpName fname) = none) :
    Inv before (t.createTruncated fname).1 := by
  have hpush := h.push .rm fname (.file (t.fs.openTruncate (tmpName fname)).2 0)
    (fun i hi => Option.some.inj hi ▸ h.opened_le hfree) fun _ => hfree
  refine hpush.openTruncate hfree ⟨_, mem_append_right _ (mem_singleton_self _), ?_⟩
  exact ⟨rfl, rfl, rfl⟩

theorem updateChanged (fname : String) : Inv before (t.updateChanged fname).1 :=
  h.push .update fname (.string []) (fun _ hi => nomatch hi) fun hop => nomatch hop

/-- A temporary file is renamed. -/
theorem rename {op : FileOp} (hop : op ∈ t.opers) (hrm : op.op = .rm) :
    Inv before { t with fs := t.fs.rename (tmpName op.fname) op.fname } := by
  have hremoves : t.removes op.fname := ⟨op, hop, hrm, rfl⟩
  have hfree := h.tmp op.fname hremoves
  have hother : ∀ p, p ≠ op.fname → t.fs.names p ≠ none →
      (t.fs.rename (tmpName op.fname) op.fname).names p = t.fs.names p ∨ p = tmpName op.fname := by
    intro p hp _
    by_cases htmp : p = tmpName op.fname
    · exact .inr htmp
    · exact .inl (t.fs.names_rename_of_ne htmp hp)
  exact
    { h with
      inodes := (t.fs.inodes_rename ..).symm ▸ h.inodes
      kept := by
        intro p i hp
        by_cases hne : p = op.fname
        · exact .inl (hne ▸ hremoves)
        · refine (h.kept p i hp).imp_right fun hname => ?_
          rcases hother p hne (by rw [hname]; exact some_ne_none i) with heq | rfl
          · exact heq.trans hname
          · rw [hfree] at hp
            cases hp
      data := by
        intro i hi
        rw [FileSystem.data_rename]
        exact h.data i hi
      named := by
        intro p i hp
        by_cases hne : p = op.fname
        · subst hne
          rcases t.fs.names_rename_new (tmpName op.fname) op.fname with heq | heq
          · rcases h.named _ i (heq ▸ hp) with hname | hle
            · rw [hfree] at hname
              cases hname
            · exact .inr hle
          · exact h.named _ i (heq ▸ hp)
        · by_cases htmp : p = tmpName op.fname
          · rw [htmp, t.fs.names_rename_old (tmpName_ne op.fname)] at hp
            cases hp
          · exact h.named p i (t.fs.names_rename_of_ne htmp hne ▸ hp)
      made := by
        intro p hp
        by_cases hne : p = op.fname
        · exact .inr (.inl (hne ▸ hremoves))
        · by_cases htmp : p = tmpName op.fname
          · rw [htmp] at hp
            exact absurd (t.fs.names_rename_old (tmpName_ne op.fname)) hp
          · exact h.made p (t.fs.names_rename_of_ne htmp hne ▸ hp) }

/-- An operation may be closed whose temporary file is gone. -/
theorem undefFd {fd : Nat} (hgone : ∀ op ∈ t.opers, op.fd = some fd → op.op = .rm →
      t.fs.names (tmpName op.fname) = none) : Inv before (t.undefFd fd) := by
  have hremoves : ∀ p, (t.undefFd fd).removes p ↔ t.removes p := by
    intro p
    simp only [removes, FileTransaction.undefFd, List.mem_map]
    constructor
    · rintro ⟨_, ⟨op, hop, rfl⟩, hrest⟩
      refine ⟨op, hop, ?_⟩
      split at hrest <;> exact hrest
    · rintro ⟨op, hop, hrest⟩
      refine ⟨_, ⟨op, hop, rfl⟩, ?_⟩
      split <;> exact hrest
  exact
    { h with
      kept := by
        intro p i hp
        exact (h.kept p i hp).imp_left (hremoves p).mpr
      made := by
        intro p hp
        refine (h.made p hp).imp_right (Or.imp (hremoves p).mpr ?_)
        rintro ⟨op, hop, hrm, hopen, rfl⟩
        have hne : op.fd ≠ some fd := fun hfd => hp (hgone op hop hfd hrm)
        exact ⟨op, mem_map.mpr ⟨op, hop, if_neg hne⟩, hrm, hopen, rfl⟩
      tmp := by
        intro p hp
        exact h.tmp p ((hremoves p).mp hp)
      fds := by
        intro _ hmap fd' hfd
        obtain ⟨op, hop, rfl⟩ := mem_map.mp hmap
        split at hfd
        · cases hfd
        · exact h.fds op hop fd' hfd
      unique := by
        intro _ hmap₁ _ hmap₂ fd' hfd₁ hfd₂
        obtain ⟨op₁, h₁, rfl⟩ := mem_map.mp hmap₁
        obtain ⟨op₂, h₂, rfl⟩ := mem_map.mp hmap₂
        split at hfd₁
        · cases hfd₁
        · split at hfd₂
          · cases hfd₂
          · rw [if_neg ‹_›, if_neg ‹_›]
            exact h.unique op₁ h₁ op₂ h₂ fd' hfd₁ hfd₂ }

theorem closeRm {op : FileOp} {fd : Nat} (hop : op ∈ t.opers) (hfd : op.fd = some fd)
    (hrm : op.op = .rm) : Inv before (t.closeRm op fd) := by
  have hflush := h.flushFd fd
  refine (hflush.rename hop hrm).undefFd fun op' hop' hfd' _ => ?_
  rw [hflush.unique op' hop' op hop fd hfd' hfd]
  exact FileSystem.names_rename_old _ (tmpName_ne op.fname)

end

end Inv

theorem perm_of_find? {α : Type} {p : α → Bool} {l : List α} {a : α} (h : l.find? p = some a) :
    (a :: l.eraseP p).Perm l := by
  induction l with
  | nil => cases h
  | cons b l ih =>
    by_cases hb : p b = true
    · rw [List.find?_cons_of_pos hb] at h
      rw [eraseP_cons_of_pos hb, Option.some.inj h]
    · rw [List.find?_cons_of_neg hb] at h
      rw [eraseP_cons_of_neg hb]
      exact (List.Perm.swap b a _).trans ((ih h).cons b)

/-- `closeFile` finds an operation that has the writer open, and only reorders the list. -/
theorem of_takeOp {opers' : List FileOp} {fd : Nat} {op : FileOp}
    (h : takeOp opers fd = some (op, opers')) :
    op ∈ opers ∧ op.fd = some fd ∧ ∀ op', op' ∈ opers' ↔ op' ∈ opers := by
  obtain ⟨found, hfind, heq⟩ := map_eq_some_iff.mp h
  obtain ⟨rfl, rfl⟩ := Prod.mk.inj heq
  have hperm := perm_of_find? hfind
  have hfd := List.find?_some hfind
  refine ⟨mem_reverse.mp (mem_of_find?_eq_some hfind), by simpa using hfd, fun op' => ?_⟩
  split
  · rfl
  · have hmem := hperm.mem_iff (a := op')
    rw [mem_cons, mem_reverse] at hmem
    rw [mem_cons, mem_reverse]
    exact hmem

/-- Writing a changed content leaves the operations that have other writers open. -/
theorem mem_writeChanged {op : FileOp} (hop : op ∈ t.opers) (hfd : op.fd ≠ some t.fds)
    (fname : String) (content : List UInt8) : op ∈ (t.writeChanged fname content).opers := by
  have hmem : op ∈ ((t.createTruncated fname).1.print (t.createTruncated fname).2 content).opers :=
    mem_append_left _ hop
  unfold writeChanged closeFileBy
  cases htake : takeOp ((t.createTruncated fname).1.print (t.createTruncated fname).2 content).opers
      (t.createTruncated fname).2 with
  | none => simpa [htake] using hmem
  | some found =>
    simp only [htake, map_some, getD_some]
    exact mem_map.mpr ⟨op, ((of_takeOp htake).2.2 op).mpr hmem, if_neg hfd⟩

namespace Inv

section

variable (h : Inv before t)
include h

/-- A file is closed, whatever closing does with the operation that is found. -/
theorem closeFileBy {fd : Nat} {closeOp : FileTransaction → FileOp → Nat → FileTransaction}
    (hclose : ∀ op ∈ t.opers, op.fd = some fd → ∀ opers,
      takeOp t.opers fd = some (op, opers) → Inv before { t with opers := opers } →
      Inv before (closeOp { t with opers := opers } op fd)) :
    Inv before ((t.closeFileBy closeOp fd).getD t) := by
  unfold FileTransaction.closeFileBy
  cases htake : takeOp t.opers fd with
  | none => exact h
  | some found =>
    obtain ⟨hop, hfd, hmem⟩ := of_takeOp htake
    exact hclose found.1 hop hfd found.2 htake (h.reorder hmem)

theorem writeChanged {fname : String} (content : List UInt8)
    (hfree : before.names (tmpName fname) = none) : Inv before (t.writeChanged fname content) := by
  have hcreated := (h.createTruncated hfree).print (t.createTruncated fname).2 content
  refine hcreated.closeFileBy fun op hop hfd opers htake hreorder => ?_
  have hnew : (⟨.rm, fname, some t.fds⟩ : FileOp) ∈ (t.createTruncated fname).1.opers :=
    mem_append_right _ (mem_singleton_self _)
  have hrm : op.op = .rm := by
    rw [hcreated.unique op hop _ hnew t.fds hfd rfl]
  exact hreorder.closeRm ((of_takeOp htake).2.2 op |>.mpr hop) hfd hrm

theorem closeOp {op : FileOp} {fd : Nat} (hop : op ∈ t.opers) (hfd : op.fd = some fd)
    (hfree : op.op = .update → t.changed op fd → before.names (tmpName op.fname) = none) :
    Inv before (t.closeOp op fd) := by
  unfold FileTransaction.closeOp
  cases hkind : op.op with
  | rm => exact h.closeRm hop hfd hkind
  | update =>
    have hflush := h.flushFd fd
    -- The update is still the only operation that has the writer open.
    have hundef : ∀ t', Inv before t' → op ∈ t'.opers → Inv before (t'.undefFd fd) := by
      intro t' h' hop'
      refine h'.undefFd fun op' hmem hfd' hrm => ?_
      rw [h'.unique op' hmem op hop' fd hfd' hfd, hkind] at hrm
      cases hrm
    have hflushed : op ∈ (t.flushFd fd).opers := hop
    by_cases hchanged : t.changed op fd = true
    · have hother : op.fd ≠ some (t.flushFd fd).fds := by
        rw [hfd]
        intro heq
        exact absurd (h.fds op hop fd hfd) (Option.some.inj heq ▸ Nat.lt_irrefl _)
      simp only [hchanged, if_true]
      exact hundef _ (hflush.writeChanged (t.updated fd) (hfree hkind hchanged))
        (mem_writeChanged hflushed hother op.fname (t.updated fd))
    · simp only [hchanged]
      exact hundef _ hflush hflushed

/-- A call keeps the invariant, if the temporary file that it uses is a new one. -/
theorem call (call : FileCall)
    (hfree : ∀ fname ∈ t.creates call, before.names (tmpName fname) = none) :
    Inv before (t.call call) := by
  cases call with
  | createTruncated fname => exact h.createTruncated (hfree fname rfl)
  | updateChanged fname => exact h.updateChanged fname
  | print fd content => exact h.print fd content
  | edit fd pieces => exact h.edit fd pieces
  | flush => exact h.flush
  | closeFile fd =>
    refine h.closeFileBy fun op hop hfd opers htake hreorder => ?_
    refine hreorder.closeOp ((of_takeOp htake).2.2 op |>.mpr hop) hfd fun hkind hchanged => ?_
    refine hfree op.fname ?_
    have hcond : op.op = .update ∧ t.changed op fd = true := ⟨hkind, hchanged⟩
    simp only [creates, htake, bind_some, if_pos hcond, mem_def]

theorem run {calls : List FileCall} (hfree : TmpFree before t calls) :
    Inv before (t.run calls) := by
  induction calls generalizing t with
  | nil => exact h
  | cons call calls ih => exact ih (h.call call hfree.1) hfree.2

end

end Inv

/-- The names that operations remove, one after the other. -/
theorem names_unlink (opers : List FileOp) (fs : FileSystem) (p : String) :
    (opers.foldl (fun fs op => if op.op = .rm then fs.unlink op.fname else fs) fs).names p =
      if ∃ op ∈ opers, op.op = .rm ∧ op.fname = p then none else fs.names p := by
  induction opers generalizing fs with
  | nil => simp
  | cons op opers ih =>
    rw [foldl_cons, ih]
    simp only [mem_cons, or_and_right, exists_or, exists_eq_left]
    by_cases hrest : ∃ op ∈ opers, op.op = .rm ∧ op.fname = p
    · simp only [hrest, or_true, if_true]
    · simp only [hrest, or_false, if_false]
      by_cases hrm : op.op = .rm
      · by_cases hp : op.fname = p
        · simp [hrm, hp, FileSystem.unlink]
        · have hne : p ≠ op.fname := fun heq => hp heq.symm
          simp [hrm, hp, FileSystem.unlink, Function.update_of_ne hne]
      · simp [hrm]

theorem data_unlink (opers : List FileOp) (fs : FileSystem) :
    (opers.foldl (fun fs op => if op.op = .rm then fs.unlink op.fname else fs) fs).data =
      fs.data := by
  induction opers generalizing fs with
  | nil => rfl
  | cons op opers ih =>
    rw [foldl_cons, ih]
    split <;> rfl

theorem read_rollback_of_removes (h : t.removes p) : t.rollback.fs.read p = none := by
  unfold removes at h
  unfold FileSystem.read rollback
  rw [names_unlink, if_pos h, map_none]

theorem read_rollback_of_not (h : ¬ t.removes p) : t.rollback.fs.read p = t.fs.read p := by
  unfold removes at h
  unfold FileSystem.read rollback
  rw [names_unlink, if_neg h, data_unlink]

theorem read_eq_none {fs : FileSystem} : fs.read p = none ↔ fs.names p = none :=
  map_eq_none_iff

/-- A rollback in a state of the invariant restores the files exactly if it is undoable. -/
theorem Inv.restores_rollback_iff (h : Inv before t) :
    Restores before t.rollback.fs ↔ Undoable before t := by
  constructor
  · intro hrestores
    refine ⟨fun p hp => ?_, fun p hp hthere => ?_⟩
    · exact read_eq_none.mp ((hrestores p).symm.trans (read_rollback_of_removes hp))
    · by_contra hnot
      have hfree : before.names p = none := by
        obtain ⟨op, hop, hrm, _, rfl⟩ := hp
        exact h.tmp op.fname ⟨op, hop, hrm, rfl⟩
      have hread := hrestores p
      rw [read_rollback_of_not hnot, read_eq_none.mpr hfree] at hread
      exact hthere (read_eq_none.mp hread)
  · intro hundo p
    by_cases hp : t.removes p
    · rw [read_rollback_of_removes hp, read_eq_none.mpr (hundo.fresh p hp)]
    · rw [read_rollback_of_not hp]
      cases hname : before.names p with
      | none =>
        rw [read_eq_none.mpr hname, read_eq_none]
        by_contra hthere
        rcases h.made p hthere with hold | hrm | hwrites
        · exact hold hname
        · exact hp hrm
        · exact hp (hundo.renamed p hwrites hthere)
      | some i =>
        have hkept := (h.kept p i hname).resolve_left hp
        unfold FileSystem.read
        rw [hkept, hname, map_some, map_some, h.data i (before.named_lt p i hname)]

/-- After the calls of a generator, a rollback restores the files exactly if all that it removes
is new, and if no temporary file is left to an operation that is open. -/
theorem restores_iff (before : FileSystem) (calls : List FileCall)
    (hfree : TmpFree before (new before) calls) :
    Restores before ((new before).run calls).rollback.fs ↔
      Undoable before ((new before).run calls) :=
  ((inv_new before).run hfree).restores_rollback_iff

/-- The only file is `a`, with one octet. -/
def oneFile : FileSystem :=
  ⟨fun p => if p = "a" then some 0 else none, fun _ => [97], 1, by
    intro p i hp
    split at hp
    · exact Option.some.inj hp ▸ Nat.one_pos
    · cases hp⟩

/-- A new file is written and closed, and the old one is updated to what it is. -/
def newAndSame : List FileCall :=
  [.createTruncated "b", .print 0 [98], .closeFile 0, .updateChanged "a", .print 1 [97],
    .closeFile 1]

theorem restores_newAndSame : Restores oneFile ((new oneFile).run newAndSame).rollback.fs := by
  refine (restores_iff oneFile newAndSame ?_).mpr ⟨?_, ?_⟩
  · exact ⟨by decide, by decide, by decide, by decide, by decide, by decide, trivial⟩
  · rintro p ⟨op, hop, hrm, rfl⟩
    have hnew : ∀ op ∈ ((new oneFile).run newAndSame).opers, op.op = .rm →
        oneFile.names op.fname = none := by decide
    exact hnew op hop hrm
  · rintro p ⟨op, hop, hrm, hopen, rfl⟩
    have hclosed : ∀ op ∈ ((new oneFile).run newAndSame).opers, op.fd.isSome = false := by decide
    rw [hclosed op hop] at hopen
    cases hopen

/-- A file that was there before is written, and gone after the rollback. -/
theorem not_restores_truncated : ¬ Restores oneFile ((new oneFile).run
    [.createTruncated "a", .print 0 [98], .closeFile 0]).rollback.fs := by
  intro h
  have hread := h "a"
  revert hread
  decide

end FileTransaction

end Drt
