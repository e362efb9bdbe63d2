import Mathlib.Data.Nat.Notation
import Mathlib.Logic.Function.Basic
import Miniraft.Theory.Calls

/-!
# Files on a disk

The calls of a file system, each of which may fail. A name in a directory leads to a file, and an
open handle stays with its file when that is renamed or removed. What was not synced is there only
until the power is lost (`PowerLoss`): data is durable after the file was synced, a name after its
directory was.
-/

namespace Files

open Calls (Machine)

/-- A directory and a name in it. -/
structure Path where
  dir : String
  name : String
  deriving DecidableEq

inductive ErrorKind where
  | notFound
  | writeZero
  | invalidFilename
  | other
  deriving DecidableEq

/-- A file that was opened is known by its number. A write that was interrupted has done nothing,
and is tried again: its answer is that of the last try. -/
inductive Call : Type → Type where
  /-- So many random numbers, if the source of randomness is there. -/
  | draw (count : ℕ) : Call (Option (List ℕ))
  /-- `O_CREAT | O_EXCL` -/
  | createNew (p : Path) : Call (Except ErrorKind ℕ)
  /-- Appends some of the bytes, and says how many. -/
  | write (i : ℕ) (bytes : List UInt8) : Call (Except ErrorKind ℕ)
  | syncAll (i : ℕ) : Call (Except ErrorKind Unit)
  | rename (p q : Path) : Call (Except ErrorKind Unit)
  | removeFile (p : Path) : Call (Except ErrorKind Unit)
  | openDir (dir : String) : Call (Except ErrorKind Unit)
  | syncDir (dir : String) : Call (Except ErrorKind Unit)

structure Disk where
  /-- The file that a name leads to. -/
  names : Path → Option ℕ
  data : ℕ → List UInt8
  /-- The files are numbered in the order in which they were created. -/
  next : ℕ
  names_lt : ∀ p i, names p = some i → i < next
  /-- What a name has led to since its directory was synced. -/
  namesBefore : Path → List (Option ℕ)
  /-- What was in a file since it was synced. -/
  dataBefore : ℕ → List (List UInt8)

namespace Disk

variable {d d' : Disk} {p q : Path} {i j : ℕ} {b bytes : List UInt8} {dir : String}

def content (d : Disk) (p : Path) : Option (List UInt8) := (d.names p).map d.data

/-- What reading a file to its end gives, if nothing fails. -/
def read (d : Disk) (p : Path) : Except ErrorKind (List UInt8) :=
  match d.content p with
  | some bytes => .ok bytes
  | none => .error .notFound

/-! ## Changes -/

/-- Lets a name lead to a file, or to none. -/
def link (d : Disk) (p : Path) (o : Option ℕ) (h : ∀ i, o = some i → i < d.next) : Disk :=
  { d with
    names := Function.update d.names p o
    names_lt := fun q i hq => by
      by_cases hqp : q = p
      · subst hqp
        exact h i (Function.update_self q o d.names ▸ hq)
      · exact d.names_lt q i (Function.update_of_ne hqp o d.names ▸ hq)
    namesBefore := Function.update d.namesBefore p (d.names p :: d.namesBefore p) }

/-- A new file without a name. -/
def alloc (d : Disk) : Disk :=
  { d with
    data := Function.update d.data d.next []
    next := d.next + 1
    names_lt := fun p i h => Nat.lt_succ_of_lt (d.names_lt p i h)
    dataBefore := Function.update d.dataBefore d.next [] }

def create (d : Disk) (p : Path) : Disk :=
  d.alloc.link p (some d.next) fun _ h => Option.some.inj h ▸ Nat.lt_succ_self d.next

def append (d : Disk) (i : ℕ) (bytes : List UInt8) : Disk :=
  { d with
    data := Function.update d.data i (d.data i ++ bytes)
    dataBefore := Function.update d.dataBefore i (d.data i :: d.dataBefore i) }

def sync (d : Disk) (i : ℕ) : Disk := { d with dataBefore := Function.update d.dataBefore i [] }

def syncNames (d : Disk) (dir : String) : Disk :=
  { d with namesBefore := fun p => if p.dir = dir then [] else d.namesBefore p }

def unlink (d : Disk) (p : Path) : Disk := d.link p none nofun

/-- Two names of the same file are both left. -/
def move (d : Disk) (p q : Path) (i : ℕ) (h : d.names p = some i) : Disk :=
  if d.names q = some i then d
  else (d.link q (some i) fun _ hi => Option.some.inj hi ▸ d.names_lt p i h).unlink p

/-- The numbers that the source of randomness gives are `draws`. -/
def step (draws : List ℕ → Bool) : {ρ : Type} → Call ρ → ρ → Disk → Option Disk
  | _, .draw _, none, d => some d
  | _, .draw count, some ns, d => if ns.length = count ∧ draws ns then some d else none
  | _, .createNew p, .ok i, d => if d.names p = none ∧ i = d.next then some (d.create p) else none
  | _, .createNew _, .error _, d => some d
  | _, .write i bytes, .ok n, d =>
    if n ≤ bytes.length then some (d.append i (bytes.take n)) else none
  | _, .write _ _, .error _, d => some d
  | _, .syncAll i, .ok (), d => some (d.sync i)
  | _, .syncAll _, .error _, d => some d
  | _, .rename p q, .ok (), d =>
    match h : d.names p with
    | some i => some (d.move p q i h)
    | none => none
  | _, .rename _ _, .error _, d => some d
  | _, .removeFile p, .ok (), d => if d.names p = none then none else some (d.unlink p)
  | _, .removeFile p, .error .notFound, d => if d.names p = none then some d else none
  | _, .removeFile _, .error _, d => some d
  | _, .openDir _, _, d => some d
  | _, .syncDir dir, .ok (), d => some (d.syncNames dir)
  | _, .syncDir _, .error _, d => some d

def machine (draws : List ℕ → Bool) : Machine Call Disk := ⟨step draws⟩

def empty : Disk := ⟨fun _ => none, fun _ => [], 0, nofun, fun _ => [], fun _ => []⟩

/-! ## What a call does -/

section

variable {draws : List ℕ → Bool}

theorem step_draw {count : ℕ} {r : Option (List ℕ)}
    (h : (machine draws).step (.draw count) r d = some d') :
    d' = d ∧ ∀ ns, r = some ns → draws ns := by
  cases r with
  | none =>
    cases h
    exact ⟨rfl, nofun⟩
  | some ns =>
    obtain ⟨hns, hd⟩ := Option.ite_none_right_eq_some.mp h
    cases hd
    exact ⟨rfl, fun _ h => Option.some.inj h ▸ hns.2⟩

theorem step_draw_some {count : ℕ} {ns : List ℕ} (hlength : ns.length = count) (h : draws ns) :
    (machine draws).step (.draw count) (some ns) d = some d := if_pos ⟨hlength, h⟩

theorem step_createNew_ok (h : d.names p = none) :
    (machine draws).step (.createNew p) (.ok d.next) d = some (d.create p) := if_pos ⟨h, rfl⟩

theorem step_createNew {r : Except ErrorKind ℕ}
    (h : (machine draws).step (.createNew p) r d = some d') :
    (∃ e, r = .error e ∧ d' = d) ∨ r = .ok d.next ∧ d.names p = none ∧ d' = d.create p := by
  cases r with
  | error e =>
    cases h
    exact .inl ⟨e, rfl, rfl⟩
  | ok i =>
    obtain ⟨⟨hp, rfl⟩, hd⟩ := Option.ite_none_right_eq_some.mp h
    cases hd
    exact .inr ⟨rfl, hp, rfl⟩

theorem step_write {r : Except ErrorKind ℕ}
    (h : (machine draws).step (.write i bytes) r d = some d') :
    (∃ e, r = .error e ∧ d' = d) ∨
      ∃ n ≤ bytes.length, r = .ok n ∧ d' = d.append i (bytes.take n) := by
  cases r with
  | error e =>
    cases h
    exact .inl ⟨e, rfl, rfl⟩
  | ok n =>
    obtain ⟨hn, hd⟩ := Option.ite_none_right_eq_some.mp h
    cases hd
    exact .inr ⟨n, hn, rfl, rfl⟩

theorem step_write_ok :
    (machine draws).step (.write i bytes) (.ok bytes.length) d = some (d.append i bytes) := by
  refine (if_pos (Nat.le_refl _)).trans ?_
  rw [List.take_length]

theorem step_syncAll {r : Except ErrorKind Unit}
    (h : (machine draws).step (.syncAll i) r d = some d') :
    (∃ e, r = .error e ∧ d' = d) ∨ r = .ok () ∧ d' = d.sync i := by
  cases r with
  | error e =>
    cases h
    exact .inl ⟨e, rfl, rfl⟩
  | ok =>
    cases h
    exact .inr ⟨rfl, rfl⟩

theorem step_rename {r : Except ErrorKind Unit}
    (h : (machine draws).step (.rename p q) r d = some d') :
    (∃ e, r = .error e ∧ d' = d) ∨ ∃ i, ∃ h : d.names p = some i, r = .ok () ∧ d' = d.move p q i h := by
  cases r with
  | error e =>
    cases h
    exact .inl ⟨e, rfl, rfl⟩
  | ok =>
    simp only [machine, step] at h
    split at h
    · next i hp =>
      cases h
      exact .inr ⟨i, hp, rfl, rfl⟩
    · cases h

theorem step_rename_ok (h : d.names p = some i) :
    (machine draws).step (.rename p q) (.ok ()) d = some (d.move p q i h) := by
  simp only [machine, step]
  split
  · next j hj =>
    obtain rfl : j = i := Option.some.inj (hj.symm.trans h)
    rfl
  · next hnone =>
    rw [hnone] at h
    cases h

theorem step_removeFile_ok (h : d.names p = some i) :
    (machine draws).step (.removeFile p) (.ok ()) d = some (d.unlink p) := if_neg (h ▸ nofun)

theorem step_removeFile {r : Except ErrorKind Unit}
    (h : (machine draws).step (.removeFile p) r d = some d') :
    (∃ e, r = .error e ∧ d' = d) ∨ r = .ok () ∧ d' = d.unlink p := by
  cases r with
  | error e =>
    refine .inl ⟨e, rfl, ?_⟩
    cases e with
    | notFound => exact (Option.some.inj (Option.ite_none_right_eq_some.mp h).2).symm
    | writeZero | invalidFilename | other => exact (Option.some.inj h).symm
  | ok => exact .inr ⟨rfl, (Option.some.inj (Option.ite_none_left_eq_some.mp h).2).symm⟩

theorem step_openDir {r : Except ErrorKind Unit}
    (h : (machine draws).step (.openDir dir) r d = some d') : d' = d := by
  cases h
  rfl

theorem step_syncDir {r : Except ErrorKind Unit}
    (h : (machine draws).step (.syncDir dir) r d = some d') :
    (∃ e, r = .error e ∧ d' = d) ∨ r = .ok () ∧ d' = d.syncNames dir := by
  cases r with
  | error e =>
    cases h
    exact .inl ⟨e, rfl, rfl⟩
  | ok =>
    cases h
    exact .inr ⟨rfl, rfl⟩

end

/-! ## What a change leaves alone -/

theorem names_unlink_self : (d.unlink p).names p = none := Function.update_self _ _ _

theorem names_unlink_of_ne (h : q ≠ p) : (d.unlink p).names q = d.names q :=
  Function.update_of_ne h _ _

theorem content_unlink_of_ne (h : q ≠ p) : (d.unlink p).content q = d.content q :=
  congrArg (Option.map d.data) (names_unlink_of_ne h)

theorem namesBefore_link_self {o : Option ℕ} {h : ∀ i, o = some i → i < d.next} :
    (d.link p o h).namesBefore p = d.names p :: d.namesBefore p := Function.update_self _ _ _

theorem namesBefore_unlink_of_ne (h : q ≠ p) : (d.unlink p).namesBefore q = d.namesBefore q :=
  Function.update_of_ne h _ _

theorem names_create_self : (d.create p).names p = some d.next := Function.update_self _ _ _

theorem names_create_of_ne (h : q ≠ p) : (d.create p).names q = d.names q :=
  Function.update_of_ne h _ _

theorem data_create_self : (d.create p).data d.next = [] := Function.update_self _ _ _

theorem data_append_self : (d.append i b).data i = d.data i ++ b := Function.update_self _ _ _

/-- No name leads to a file that is still to be created. -/
theorem names_ne_next : d.names p ≠ some d.next := fun h =>
  Nat.lt_irrefl d.next (d.names_lt p d.next h)

/-- What a name leads to depends on its file only. -/
theorem content_congr (hnames : d'.names p = d.names p)
    (hdata : ∀ i, d.names p = some i → d'.data i = d.data i) : d'.content p = d.content p := by
  rw [content, content, hnames]
  cases hp : d.names p with
  | none => rfl
  | some i => exact congrArg some (hdata i hp)

theorem content_create_of_ne (h : q ≠ p) : (d.create p).content q = d.content q := by
  refine content_congr (names_create_of_ne h) fun i hi => Function.update_of_ne ?_ _ _
  rintro rfl
  exact names_ne_next hi

theorem names_move (h : d.names p = some i) : (d.move p q i h).names q = some i := by
  rw [move]
  split
  · next hq => exact hq
  · next hq =>
    have hne : q ≠ p := by
      rintro rfl
      exact hq h
    rw [names_unlink_of_ne hne]
    exact Function.update_self _ _ _

/-- The name may lead back to where it led. -/
theorem namesBefore_move (h : d.names p = some i) (hq : d.names q ≠ some i) :
    d.names q ∈ (d.move p q i h).namesBefore q := by
  have hne : q ≠ p := by
    rintro rfl
    exact hq h
  rw [move, if_neg hq, namesBefore_unlink_of_ne hne, namesBefore_link_self]
  exact List.mem_cons_self

theorem data_move (h : d.names p = some i) : (d.move p q i h).data = d.data := by
  rw [move]
  split
  · rfl
  · rfl

theorem dataBefore_move (h : d.names p = some i) : (d.move p q i h).dataBefore = d.dataBefore := by
  rw [move]
  split
  · rfl
  · rfl

/-! ## One file alone -/

/-- Only what is in file `i` has changed, and what was in it. -/
structure OnlyData (i : ℕ) (d d' : Disk) : Prop where
  names : d'.names = d.names
  next : d'.next = d.next
  namesBefore : d'.namesBefore = d.namesBefore
  data : ∀ j, j ≠ i → d'.data j = d.data j
  dataBefore : ∀ j, j ≠ i → d'.dataBefore j = d.dataBefore j

theorem OnlyData.refl : OnlyData i d d := ⟨rfl, rfl, rfl, fun _ _ => rfl, fun _ _ => rfl⟩

theorem OnlyData.trans {d'' : Disk} (h : OnlyData i d d') (h' : OnlyData i d' d'') :
    OnlyData i d d'' where
  names := h'.names.trans h.names
  next := h'.next.trans h.next
  namesBefore := h'.namesBefore.trans h.namesBefore
  data j hj := (h'.data j hj).trans (h.data j hj)
  dataBefore j hj := (h'.dataBefore j hj).trans (h.dataBefore j hj)

theorem onlyData_append : OnlyData i d (d.append i b) where
  names := rfl
  next := rfl
  namesBefore := rfl
  data _ h := Function.update_of_ne h _ _
  dataBefore _ h := Function.update_of_ne h _ _

theorem onlyData_sync : OnlyData i d (d.sync i) where
  names := rfl
  next := rfl
  namesBefore := rfl
  data _ _ := rfl
  dataBefore _ h := Function.update_of_ne h _ _

theorem OnlyData.content (h : OnlyData i d d') (hp : d.names p ≠ some i) :
    d'.content p = d.content p := by
  refine content_congr (congrFun h.names p) fun j hj => h.data j ?_
  rintro rfl
  exact hp hj

/-! ## A loss of power -/

/-- What a loss of power leaves of `d`: names and data as they are, or as they were. -/
structure PowerLoss (d d' : Disk) : Prop where
  names : ∀ p, d'.names p ∈ d.names p :: d.namesBefore p
  data : ∀ i, d'.data i ∈ d.data i :: d.dataBefore i

/-- The content that is there whether or not the power is lost. -/
def Durable (d : Disk) (p : Path) (b : List UInt8) : Prop :=
  ∀ d', PowerLoss d d' → d'.content p = some b

/-- A file that was synced, in a directory that was. -/
theorem durable_of_synced (hnames : d.names p = some i) (hbefore : d.namesBefore p = [])
    (hdata : d.data i = b) (hdataBefore : d.dataBefore i = []) : d.Durable p b := by
  intro d' h
  have hp : d'.names p = some i := by
    have hmem := h.names p
    rwa [hbefore, List.mem_singleton, hnames] at hmem
  have hi : d'.data i = b := by
    have hmem := h.data i
    rwa [hdataBefore, List.mem_singleton, hdata] at hmem
  rw [Disk.content, hp, ← hi]
  rfl

/-- A name that was missing can be missing again. -/
theorem not_durable (h : none ∈ d.namesBefore p) : ¬ d.Durable p b := by
  intro hdurable
  have hloss : PowerLoss d (d.unlink p) := by
    refine ⟨fun q => ?_, fun _ => List.mem_cons_self⟩
    by_cases hq : q = p
    · subst hq
      rw [names_unlink_self]
      exact List.mem_cons_of_mem _ h
    · rw [names_unlink_of_ne hq]
      exact List.mem_cons_self
  have hsome := hdurable _ hloss
  rw [content, names_unlink_self] at hsome
  cases hsome

end Disk

end Files
