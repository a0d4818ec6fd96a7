import KvEngine.Common.Bytes

/-!
# Files, system calls and crashes

The storage code only creates, truncates, extends, syncs and removes files. A
function of the model therefore returns, next to its result, the list of its
`Effect`s on the file system, one for each byte written. A crash may fall
between any two effects, so the files a crash leaves behind are what some prefix
of the list makes of the files before (`Disk.run` of `effects.take n`): in
particular a `write` can be torn at every byte.

Whether a system call succeeds is read from a `Schedule`, the list of the
results of the calls to come; the empty schedule is a run in which all succeed.
-/

namespace KvEngine

abbrev Path := String

/-- The file system: the content of every file that exists. -/
abbrev Disk := Path → Option Bytes

/-- One atomic change of the file system. -/
inductive Effect where
  /-- `open(O_CREAT)` of a file: made empty when absent, else left alone. -/
  | create (path : Path)
  /-- Opening a `std::ofstream`: the file exists and is empty afterwards. -/
  | truncate (path : Path)
  /-- One byte of a `write` at file offset `pos`. -/
  | write (path : Path) (pos : ℕ) (byte : UInt8)
  /-- A completed `fsync`. -/
  | fsync (path : Path)
  /-- `std::remove` of a file. -/
  | remove (path : Path)
  deriving DecidableEq

/-- A byte written at offset `pos`; a gap past the end reads as zero bytes. -/
def writeAt (file : Bytes) (pos : ℕ) (byte : UInt8) : Bytes :=
  if pos < file.length then file.set pos byte
  else file ++ List.replicate (pos - file.length) 0 ++ [byte]

/-- What one effect makes of the file system. -/
def Effect.apply (disk : Disk) : Effect → Disk
  | .create p => Function.update disk p (some ((disk p).getD []))
  | .truncate p => Function.update disk p (some [])
  | .write p pos b => Function.update disk p ((disk p).map fun file => writeAt file pos b)
  | .fsync _ => disk
  | .remove p => Function.update disk p none

/-- The file system after a list of effects. -/
def Disk.run (disk : Disk) (effects : List Effect) : Disk := effects.foldl Effect.apply disk

@[simp] theorem Disk.run_nil (disk : Disk) : disk.run [] = disk := rfl

@[simp] theorem Disk.run_cons (disk : Disk) (e : Effect) (es : List Effect) :
    disk.run (e :: es) = (e.apply disk).run es := rfl

@[simp] theorem Disk.run_append (disk : Disk) (es fs : List Effect) :
    disk.run (es ++ fs) = (disk.run es).run fs := by
  simp [Disk.run, List.foldl_append]

/-- The file an effect is about. -/
def Effect.path : Effect → Path
  | .create p => p
  | .truncate p => p
  | .write p _ _ => p
  | .fsync p => p
  | .remove p => p

/-- Effects on other files leave a file as it is. -/
theorem Disk.run_of_path_ne {es : List Effect} {p : Path} (h : ∀ e ∈ es, e.path ≠ p) (disk : Disk) :
    disk.run es p = disk p := by
  induction es generalizing disk with
  | nil => rfl
  | cons e es ih =>
    have he : e.apply disk p = disk p := by
      have hne := (h e (by simp)).symm
      cases e with
      | fsync q => rfl
      | _ => exact Function.update_of_ne hne _ _
    rw [Disk.run_cons, ih (fun x hx => h x (by simp [hx])), he]

/-- The effects of writing `bytes` at offset `pos`. -/
def writes (path : Path) : ℕ → Bytes → List Effect
  | _, [] => []
  | pos, b :: bs => .write path pos b :: writes path (pos + 1) bs

@[simp] theorem length_writes (path : Path) (pos : ℕ) (bs : Bytes) :
    (writes path pos bs).length = bs.length := by
  induction bs generalizing pos with
  | nil => rfl
  | cons b bs ih => simp [writes, ih]

theorem writes_append (path : Path) (pos : ℕ) (as bs : Bytes) :
    writes path pos (as ++ bs) = writes path pos as ++ writes path (pos + as.length) bs := by
  induction as generalizing pos with
  | nil => rfl
  | cons a as ih => simp [writes, ih, Nat.add_assoc, Nat.add_comm 1]

theorem fsync_not_mem_writes (path p : Path) (pos : ℕ) (bs : Bytes) :
    Effect.fsync p ∉ writes path pos bs := by
  induction bs generalizing pos with
  | nil => simp [writes]
  | cons b bs ih => simp [writes, ih]

theorem path_of_mem_writes {path : Path} {pos : ℕ} {bs : Bytes} {e : Effect}
    (h : e ∈ writes path pos bs) : e.path = path := by
  induction bs generalizing pos with
  | nil => simp [writes] at h
  | cons b bs ih =>
    rcases List.mem_cons.mp h with rfl | h
    · rfl
    · exact ih h

theorem writeAt_end (file : Bytes) (b : UInt8) : writeAt file file.length b = file ++ [b] := by
  simp [writeAt]

/-- A write cut after `n` bytes, at the end of the file, leaves the file with
the first `n` bytes appended and every other file as it was. -/
theorem Disk.run_take_writes (disk : Disk) (path : Path) (file bs : Bytes)
    (hfile : disk path = some file) (n : ℕ) :
    disk.run ((writes path file.length bs).take n) =
      Function.update disk path (some (file ++ bs.take n)) := by
  induction bs generalizing disk file n with
  | nil => simp [writes, ← hfile]
  | cons b bs ih =>
    cases n with
    | zero => simp [← hfile]
    | succ n =>
      have hstep : (Effect.write path file.length b).apply disk =
          Function.update disk path (some (file ++ [b])) := by
        simp [Effect.apply, hfile, writeAt_end]
      have := ih (Function.update disk path (some (file ++ [b]))) (file ++ [b]) (by simp) n
      rw [List.length_append, List.length_singleton] at this
      rw [writes, List.take_succ_cons, Disk.run_cons, hstep, this]
      simp

theorem Disk.run_writes (disk : Disk) (path : Path) (file bs : Bytes)
    (hfile : disk path = some file) :
    disk.run (writes path file.length bs) = Function.update disk path (some (file ++ bs)) := by
  have := disk.run_take_writes path file bs hfile bs.length
  rwa [List.take_of_length_le (by simp), List.take_length] at this

theorem Disk.run_take_fsync (disk : Disk) (path : Path) (n : ℕ) :
    disk.run ([Effect.fsync path].take n) = disk := by
  cases n <;> simp [Effect.apply]

/-! ## Results of system calls -/

/-- What a system call returned: success in full, success of a `write` that
accepted only some of the bytes, or an error. -/
inductive SysResult where
  | ok
  | short (n : ℕ)
  | error
  deriving DecidableEq

/-- The results of the system calls to come; past its end all succeed. -/
abbrev Schedule := List SysResult

/-- The result of the next system call. -/
def Schedule.next : Schedule → SysResult × Schedule
  | [] => (.ok, [])
  | r :: rs => (r, rs)

@[simp] theorem Schedule.next_nil : Schedule.next [] = (.ok, []) := rfl

/-- What a function of the storage code returned, what it did to the files and
the schedule it left. -/
structure Outcome (α : Type) where
  value : α
  effects : List Effect
  os : Schedule

end KvEngine
