import Mathlib.Algebra.BigOperators.Group.List.Basic
import Mathlib.Algebra.GroupWithZero.Nat
import Mathlib.Algebra.Group.Action.Defs
import Mathlib.Order.Lattice.Nat
import Falcon.Lib.Trace

/-!
# The event pipe

`EventNotifier` wakes the thread of the stream server: the other threads write
eight bytes into a pipe, the stream server polls its reading end and reads it
empty.  `flush` reads again as long as a read fills its buffer.  The pipe is a
blocking one, so after a last read that filled the buffer the next one waits.
-/

namespace Falcon

inductive Errno where
  | eintr
  | eagain
  deriving DecidableEq

/-- What a system call returns, if it does not wait. -/
inductive IoResult where
  | length (len : ℕ)
  | error (errno : Errno)
  deriving DecidableEq

/-- The flags of the descriptor, and the status flags of the open file. -/
structure Fd where
  flags : ℕ
  status : ℕ
  deriving DecidableEq

namespace Fd

/-- `FD_CLOEXEC`. -/
def cloexec : ℕ := 1

/-- `O_NONBLOCK`. -/
def nonblock : ℕ := 0x800

/-- `fcntl (fd, F_SETFD, arg)`: a descriptor has only the flag `FD_CLOEXEC`. -/
def setFd (fd : Fd) (arg : ℕ) : Fd := { fd with flags := arg &&& cloexec }

/-- `set_flags` -/
def setFlags (fd : Fd) : Fd := fd.setFd (fd.flags ||| cloexec ||| nonblock)

def isNonblock (fd : Fd) : Bool := fd.status &&& nonblock ≠ 0

@[simp] theorem isNonblock_setFlags (fd : Fd) : fd.setFlags.isNonblock = fd.isNonblock := rfl

end Fd

/-- `capacity` is the number of bytes that the pipe has room for. -/
structure EventNotifier where
  rfd : Fd
  wfd : Fd
  pipe : List UInt8
  capacity : ℕ

namespace EventNotifier

/-- `uint64_t value = 1` -/
def notification : List UInt8 := [1, 0, 0, 0, 0, 0, 0, 0]

/-- `char buffer[512]` -/
def bufferSize : ℕ := 512

def create (capacity : ℕ) : EventNotifier where
  rfd := Fd.setFlags ⟨0, 0⟩
  wfd := Fd.setFlags ⟨0, 0⟩
  pipe := []
  capacity := capacity

/-- The call of `write` in `raise`, which is atomic; `none` if it waits. -/
def write (e : EventNotifier) (value : List UInt8) : Option (IoResult × EventNotifier) :=
  if e.pipe.length + value.length ≤ e.capacity then
    some (.length value.length, { e with pipe := e.pipe ++ value })
  else if e.wfd.isNonblock then some (.error .eagain, e) else none

/-- A call of `read`; `none` if it waits. -/
def read (e : EventNotifier) (size : ℕ) : Option (IoResult × EventNotifier) :=
  if e.pipe = [] then
    if e.rfd.isNonblock then some (.error .eagain, e) else none
  else some (.length (min size e.pipe.length), { e with pipe := e.pipe.drop size })

/-- The condition of the loop of `flush`. -/
def readsAgain : IoResult → Bool
  | .length len => len = bufferSize
  | .error errno => errno = .eintr

/-- So many notifications are pending. -/
def Pending (e : EventNotifier) (k : ℕ) : Prop :=
  e.pipe = (List.replicate k notification).flatten

end EventNotifier

/-- The thread of the stream server waits in `poll`, or is in `flush` and has
issued a read. -/
inductive StreamThread where
  | polling
  | reading
  deriving DecidableEq

structure EventSystem where
  notifier : EventNotifier
  thread : StreamThread

inductive EventStep where
  -- `poll` finds the pipe readable, and `flush` is called.
  | poll
  -- The read returns.
  | read
  -- The read is interrupted by a signal.
  | interrupt
  -- Another thread calls `raise`.
  | raise
  deriving DecidableEq

namespace EventSystem

open EventNotifier

def start (capacity : ℕ) : EventSystem := ⟨.create capacity, .polling⟩

/-- Where the thread is after a read. -/
def next (res : IoResult) : StreamThread := if readsAgain res then .reading else .polling

inductive Step : EventSystem → EventStep → EventSystem → Prop
  | poll {e : EventNotifier} (hreadable : e.pipe ≠ []) : Step ⟨e, .polling⟩ .poll ⟨e, .reading⟩
  | read {e e' : EventNotifier} {res : IoResult} (hread : e.read bufferSize = some (res, e')) :
      Step ⟨e, .reading⟩ .read ⟨e', next res⟩
  | interrupt {e : EventNotifier} :
      Step ⟨e, .reading⟩ .interrupt ⟨e, next (.error .eintr)⟩
  | raise {e e' : EventNotifier} {thread : StreamThread} {res : IoResult}
      (hwrite : e.write notification = some (res, e')) :
      Step ⟨e, thread⟩ .raise ⟨e', thread⟩

/-- No other thread raises the event, and `flush` is not called again. -/
def Alone (as : List EventStep) : Prop := ∀ a ∈ as, a = .read ∨ a = .interrupt

/-- The call of `flush` that has just begun does not wait on the empty pipe: it
returns, and has emptied it. -/
structure Flushes (s : EventSystem) : Prop where
  nonempty : ∀ as t, Alone as → Lib.Trace Step s as t → t.thread = .reading →
    t.notifier.pipe ≠ []
  emptied : ∀ as t, Alone as → Lib.Trace Step s as t → t.thread = .polling →
    t.notifier.pipe = []
  -- As long as not so many reads have returned, the next one can return.
  returns : ∃ reads, ∀ as t, Alone as → Lib.Trace Step s as t →
    as.count .read ≤ reads ∧ (as.count .read < reads → ∃ u, Step t .read u) ∧
      (as.count .read = reads → t.thread = .polling)

variable {e e' : EventNotifier} {s t u : EventSystem} {as : List EventStep} {a : EventStep} {k : ℕ}

/-! ## What a step does -/

theorem Alone.of_snoc (h : Alone (as ++ [a])) : Alone as ∧ (a = .read ∨ a = .interrupt) :=
  ⟨fun b hb ↦ h b (List.mem_append_left _ hb), h a (by simp)⟩

theorem read_cases {size : ℕ} {res : IoResult} (h : e.read size = some (res, e')) :
    (e.pipe = [] ∧ e.rfd.isNonblock = true ∧ res = .error .eagain ∧ e' = e) ∨
    (e.pipe ≠ [] ∧ res = .length (min size e.pipe.length) ∧
      e' = { e with pipe := e.pipe.drop size }) := by
  rw [EventNotifier.read] at h
  split at h
  · rename_i hempty
    split at h
    · rename_i hnonblock
      obtain ⟨rfl, rfl⟩ := Prod.mk.inj (Option.some.inj h)
      exact Or.inl ⟨hempty, hnonblock, rfl, rfl⟩
    · cases h
  · rename_i hne
    obtain ⟨rfl, rfl⟩ := Prod.mk.inj (Option.some.inj h)
    exact Or.inr ⟨hne, rfl, rfl⟩

theorem write_cases {value : List UInt8} {res : IoResult} (h : e.write value = some (res, e')) :
    (res = .length value.length ∧ e' = { e with pipe := e.pipe ++ value }) ∨
    (res = .error .eagain ∧ e' = e) := by
  rw [EventNotifier.write] at h
  split at h
  · obtain ⟨rfl, rfl⟩ := Prod.mk.inj (Option.some.inj h)
    exact Or.inl ⟨rfl, rfl⟩
  · split at h
    · obtain ⟨rfl, rfl⟩ := Prod.mk.inj (Option.some.inj h)
      exact Or.inr ⟨rfl, rfl⟩
    · cases h

/-- No step touches the flags of the reading end. -/
theorem Step.rfd (h : Step s a t) : t.notifier.rfd = s.notifier.rfd := by
  cases h with
  | poll hreadable => rfl
  | interrupt => rfl
  | read hread => obtain ⟨-, -, -, rfl⟩ | ⟨-, -, rfl⟩ := read_cases hread <;> rfl
  | raise hwrite => obtain ⟨-, rfl⟩ | ⟨-, rfl⟩ := write_cases hwrite <;> rfl

/-- `set_flags` has not made the reading end a non-blocking one. -/
theorem blocking_of_run {capacity : ℕ} (h : Lib.Trace Step (start capacity) as s) :
    s.notifier.rfd.isNonblock = false := by
  refine h.invariant (fun _ s ↦ s.notifier.rfd.isNonblock = false)
    (show Fd.isNonblock ⟨0, 0⟩ = false by decide) ?_
  intro as t a u ht hstep
  rw [hstep.rfd]
  exact ht

/-! ## The pipe holds whole notifications -/

theorem length_notifications (k : ℕ) : (List.replicate k notification).flatten.length = 8 * k := by
  rw [List.length_flatten, List.map_replicate, List.sum_replicate, smul_eq_mul, mul_comm]
  rfl

theorem length_pending (h : e.Pending k) : e.pipe.length = 8 * k :=
  (congrArg List.length h).trans (length_notifications k)

/-! ## A call of `flush` -/

/-- The thread reads again if the pipe held enough to fill the buffer. -/
theorem next_read (len : ℕ) : next (.length (min bufferSize len)) =
    if bufferSize ≤ len then .reading else .polling := by
  have hfull : min bufferSize len = bufferSize ↔ bufferSize ≤ len := min_eq_left_iff
  simp only [next, readsAgain, decide_eq_true_eq, hfull]

theorem step_read (hne : e.pipe ≠ []) : Step ⟨e, .reading⟩ .read
    ⟨{ e with pipe := e.pipe.drop bufferSize },
      if bufferSize ≤ e.pipe.length then .reading else .polling⟩ := by
  rw [← next_read]
  exact .read (if_neg hne)

/-- Where `flush` is after so many reads of a pipe that held `content`. -/
inductive Flushing (content : List UInt8) (reads : ℕ) (t : EventSystem) : Prop
  | reading (hthread : t.thread = .reading) (hle : bufferSize * reads ≤ content.length)
      (hpipe : t.notifier.pipe = content.drop (bufferSize * reads))
  | done (hthread : t.thread = .polling) (hreads : reads = content.length / bufferSize + 1)
      (hpipe : t.notifier.pipe = [])

theorem flushing_of_run (hblocking : e.rfd.isNonblock = false) (hall : Alone as)
    (h : Lib.Trace Step ⟨e, .reading⟩ as t) : Flushing e.pipe (as.count .read) t := by
  suffices hinv : Alone as → t.notifier.rfd = e.rfd ∧ Flushing e.pipe (as.count .read) t from
    (hinv hall).2
  refine h.invariant (fun as t ↦ Alone as →
    t.notifier.rfd = e.rfd ∧ Flushing e.pipe (as.count .read) t) ?_ ?_
  · exact fun _ ↦ ⟨rfl, .reading rfl (by simp) (by simp)⟩
  · intro as t a u ht hstep hall
    obtain ⟨hfirst, hlast⟩ := hall.of_snoc
    obtain ⟨hrfd, hflushing⟩ := ht hfirst
    refine ⟨hstep.rfd.trans hrfd, ?_⟩
    cases hstep with
    | poll hreadable => simp at hlast
    | raise hwrite => simp at hlast
    | interrupt =>
        rw [List.count_append, List.count_singleton]
        cases hflushing with
        | reading hthread hle hpipe => exact .reading rfl hle hpipe
        | done hthread hreads hpipe => cases hthread
    | read hread =>
        rw [List.count_append, List.count_singleton_self]
        obtain ⟨hthread, hle, hpipe⟩ | ⟨hthread, -, -⟩ := hflushing
        · obtain ⟨-, hnonblock, -⟩ | ⟨hne, rfl, rfl⟩ := read_cases hread
          · rw [hrfd, hblocking] at hnonblock
            cases hnonblock
          · rw [hpipe, ← List.length_pos_iff, List.length_drop] at hne
            rw [hpipe, next_read, List.length_drop, List.drop_drop, ← Nat.mul_succ]
            split
            · rename_i hfull
              exact .reading rfl (by rw [Nat.mul_succ]; omega) rfl
            · rename_i hpart
              have hquot : e.pipe.length / bufferSize = as.count .read :=
                Nat.div_eq_of_lt_le (by rw [mul_comm]; omega) (by rw [Nat.succ_mul, mul_comm]; omega)
              refine .done rfl (by rw [hquot]) (List.drop_eq_nil_of_le ?_)
              rw [Nat.mul_succ]
              omega
        · cases hthread

/-- The run of as many reads as the content has full buffers. -/
theorem run_full {n : ℕ} (hn : bufferSize * n ≤ e.pipe.length) :
    Lib.Trace Step ⟨e, .reading⟩ (List.replicate n .read)
      ⟨{ e with pipe := e.pipe.drop (bufferSize * n) }, .reading⟩ := by
  induction n with
  | zero => exact .nil
  | succ n ih =>
      rw [Nat.mul_succ] at hn
      have hlength : (e.pipe.drop (bufferSize * n)).length = e.pipe.length - bufferSize * n :=
        List.length_drop
      have hfull : bufferSize ≤ (e.pipe.drop (bufferSize * n)).length := by omega
      have hne : e.pipe.drop (bufferSize * n) ≠ [] := by
        rw [← List.length_pos_iff]
        exact Nat.lt_of_lt_of_le (by decide) hfull
      rw [List.replicate_succ']
      refine (ih (by omega)).snoc ?_
      have hstep := step_read (e := { e with pipe := e.pipe.drop (bufferSize * n) }) hne
      rwa [if_pos hfull, List.drop_drop, ← Nat.mul_succ] at hstep

theorem alone_replicate (n : ℕ) : Alone (List.replicate n .read) :=
  fun _ ha ↦ Or.inl (List.eq_of_mem_replicate ha)

/-- The read on the empty pipe waits. -/
structure Hung (s : EventSystem) : Prop where
  thread : s.thread = .reading
  pipe : s.notifier.pipe = []
  blocking : s.notifier.rfd.isNonblock = false

/-- Only another notification ends it. -/
theorem Hung.run (h : Hung s) (has : .raise ∉ as) (hrun : Lib.Trace Step s as t) : t = s := by
  suffices hinv : .raise ∉ as → t = s from hinv has
  refine hrun.invariant (fun as t ↦ .raise ∉ as → t = s) (fun _ ↦ rfl) ?_
  intro as t a u ht hstep has
  rw [List.mem_append, not_or, List.mem_singleton] at has
  obtain rfl := ht has.1
  cases hstep with
  | poll hreadable => cases h.thread
  | interrupt => rfl
  | raise hwrite => exact absurd rfl has.2
  | read hread =>
      obtain ⟨-, hnonblock, -⟩ | ⟨hne, -⟩ := read_cases hread
      · rw [h.blocking] at hnonblock
        cases hnonblock
      · exact absurd h.pipe hne

/-- The last read that fills the buffer empties the pipe. -/
theorem hung_of_dvd (hblocking : e.rfd.isNonblock = false) (hk : e.Pending k) (hdvd : 64 ∣ k) :
    ∃ reads t, Lib.Trace Step ⟨e, .reading⟩ (List.replicate reads .read) t ∧ Hung t := by
  obtain ⟨j, rfl⟩ := hdvd
  have hall : bufferSize * j = e.pipe.length := by
    rw [length_pending hk, bufferSize]
    omega
  exact ⟨j, _, run_full hall.le, rfl, List.drop_eq_nil_of_le hall.ge, hblocking⟩

/-- A call of `flush` on so many pending notifications. -/
theorem flushes_iff {capacity : ℕ} (hrun : Lib.Trace Step (start capacity) as s)
    (hpending : s.notifier.Pending k) (hpoll : Step s .poll t) : Flushes t ↔ ¬ 64 ∣ k := by
  have hblocking := blocking_of_run hrun
  obtain @⟨e, hreadable⟩ := hpoll
  have hlength : e.pipe.length = 8 * k := length_pending hpending
  constructor
  · intro h hdvd
    obtain ⟨reads, t, htrace, hhung⟩ := hung_of_dvd hblocking hpending hdvd
    exact h.nonempty _ _ (alone_replicate reads) htrace hhung.thread hhung.pipe
  · intro hk
    have hne : ∀ reads, bufferSize * reads ≠ e.pipe.length := by
      intro reads heq
      rw [hlength, bufferSize] at heq
      exact hk ⟨reads, by omega⟩
    have hreading : ∀ {reads : ℕ} {t : EventSystem}, bufferSize * reads ≤ e.pipe.length →
        t.notifier.pipe = e.pipe.drop (bufferSize * reads) → t.notifier.pipe ≠ [] := by
      intro reads t hle hpipe hempty
      rw [hpipe, List.drop_eq_nil_iff] at hempty
      exact hne reads (Nat.le_antisymm hle hempty)
    refine ⟨fun as t hall htrace hthread ↦ ?_, fun as t hall htrace hthread ↦ ?_,
      e.pipe.length / bufferSize + 1, fun as t hall htrace ↦ ?_⟩
    · obtain ⟨-, hle, hpipe⟩ | ⟨hdone, -, -⟩ := flushing_of_run hblocking hall htrace
      · exact hreading hle hpipe
      · rw [hdone] at hthread
        cases hthread
    · obtain ⟨hthread', -, -⟩ | ⟨-, -, hpipe⟩ := flushing_of_run hblocking hall htrace
      · rw [hthread'] at hthread
        cases hthread
      · exact hpipe
    · obtain ⟨hthread, hle, hpipe⟩ | ⟨hthread, hreads, -⟩ :=
        flushing_of_run hblocking hall htrace
      · have hlt : as.count .read < e.pipe.length / bufferSize + 1 := by
          rw [Nat.lt_succ_iff, Nat.le_div_iff_mul_le (by decide), mul_comm]
          exact hle
        obtain ⟨e', thread⟩ := t
        obtain rfl : thread = .reading := hthread
        exact ⟨hlt.le, fun _ ↦ ⟨_, step_read (hreading hle hpipe)⟩, fun heq ↦ absurd heq hlt.ne⟩
      · exact ⟨hreads.le, fun hlt ↦ absurd hreads hlt.ne, fun _ ↦ hthread⟩

theorem run_raise {capacity : ℕ} (n : ℕ) (hn : 8 * n ≤ capacity) :
    Lib.Trace Step (start capacity) (List.replicate n .raise)
      ⟨{ EventNotifier.create capacity with
        pipe := (List.replicate n notification).flatten }, .polling⟩ := by
  induction n with
  | zero => exact .nil
  | succ n ih =>
      rw [List.replicate_succ', List.replicate_succ', List.flatten_append, List.flatten_singleton]
      refine (ih (by omega)).snoc (.raise (if_pos ?_))
      change (List.replicate n notification).flatten.length + 8 ≤ capacity
      rw [length_notifications]
      exact hn

/-- Three notifications are read at once. -/
theorem flushes_three : ∃ as s t, Lib.Trace Step (start 65536) as s ∧ s.notifier.Pending 3 ∧
    Step s .poll t ∧ Flushes t := by
  have hrun := run_raise 3 (show 8 * 3 ≤ 65536 by decide)
  exact ⟨_, _, _, hrun, rfl, .poll (by decide), (flushes_iff hrun rfl (.poll (by decide))).mpr
    (by decide)⟩

/-- A burst of 64 notifications fills the buffer, and the pipe is empty. -/
theorem not_flushes_burst : ¬ ∀ (capacity k : ℕ) (as : List EventStep) (s t : EventSystem),
    Lib.Trace Step (start capacity) as s → s.notifier.Pending k → Step s .poll t → Flushes t := by
  intro hclaim
  have hrun := run_raise 64 (show 8 * 64 ≤ 65536 by decide)
  have hreadable : (List.replicate 64 notification).flatten ≠ [] := by
    rw [← List.length_pos_iff, length_notifications]
    decide
  have hflushes := hclaim 65536 64 _ _ _ hrun rfl (.poll hreadable)
  obtain ⟨reads, t, htrace, hhung⟩ := hung_of_dvd (blocking_of_run hrun) rfl ⟨1, rfl⟩
  exact hflushes.nonempty _ _ (alone_replicate reads) htrace hhung.thread hhung.pipe

end EventSystem

end Falcon
