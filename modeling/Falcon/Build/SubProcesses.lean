import Falcon.Build.Builder
import Falcon.Lib.Trace

/-!
# The process manager

`PosixSubProcessManager` monitors the standard output and error of the
commands of a build.  A process is finished when both have been read to the
end; `waitForNext` polls until there is one and hands it out.
-/

namespace Falcon

/-- What `read` returns for a descriptor that is ready, apart from errors. -/
inductive ReadResult where
  | data (buf : List UInt8)
  | eof
  deriving DecidableEq

/-- A call of `writeStdout` or `writeStderr` of the consumer. -/
structure CommandOutput where
  cmdId : ℕ
  isStdout : Bool
  buf : List UInt8
  deriving DecidableEq

/-- `address` is that of the object; `none` is a descriptor that was closed. -/
structure PosixSubProcess where
  address : ℕ
  id : ℕ
  stdoutFd : Option ℕ
  stderrFd : Option ℕ
  deriving DecidableEq

namespace PosixSubProcess

def completed (p : PosixSubProcess) : Bool := p.stdoutFd.isNone && p.stderrFd.isNone

def fdOf (p : PosixSubProcess) (isStdout : Bool) : Option ℕ :=
  if isStdout then p.stdoutFd else p.stderrFd

def closeFd (p : PosixSubProcess) (isStdout : Bool) : PosixSubProcess :=
  if isStdout then { p with stdoutFd := none } else { p with stderrFd := none }

/-- `readStdout` and `readStderr`: whether the end was read, the process, and
what the consumer is told. -/
def onFdReady (p : PosixSubProcess) (isStdout : Bool) (r : ReadResult) :
    Outcome (Bool × PosixSubProcess × List CommandOutput) := do
  assert (p.fdOf isStdout).isSome .fdOpen
  match r with
  | .data buf => pure (false, p, [⟨p.id, isStdout, buf⟩])
  | .eof => pure (true, p.closeFd isStdout, [])

end PosixSubProcess

namespace PosixSubProcessManager

/-- `node` tells the elements of `pollfds_` apart, as iterators do. -/
structure PollFd where
  node : ℕ
  fd : ℕ
  deriving DecidableEq

/-- The iterators are the address of the process and the node in `pollfds_`. -/
structure FdInfo where
  itRunning : ℕ
  itFd : ℕ
  isStdout : Bool
  deriving DecidableEq

structure BuiltRule where
  rule : RuleId
  status : SubProcessExitStatus
  cmdId : ℕ
  deriving DecidableEq

/-- What `new`, `pipe` and `fork` give to a new process. -/
structure Spawned where
  address : ℕ
  stdout : ℕ
  stderr : ℕ

end PosixSubProcessManager

open PosixSubProcessManager in
structure PosixSubProcessManager where
  id : ℕ
  running : List PosixSubProcess
  finished : List PosixSubProcess
  pollfds : List PollFd
  map : ℕ → Option FdInfo
  mapToRule : ℕ → Option RuleId
  nextNode : ℕ
  output : List CommandOutput

namespace PosixSubProcessManager

def create : PosixSubProcessManager := ⟨0, [], [], [], fun _ ↦ none, fun _ ↦ none, 0, []⟩

def nbRunning (m : PosixSubProcessManager) : ℕ := m.running.length + m.finished.length

/-- `insert` keeps an entry that exists; `id_` is an `unsigned int`. -/
def addProcess (command : String) (rule : RuleId) (spawned : Spawned)
    (m : PosixSubProcessManager) : Outcome (ℕ × PosixSubProcessManager) := do
  assert (command ≠ "") .commandNotEmpty
  let proc : PosixSubProcess := ⟨spawned.address, m.id, some spawned.stdout, some spawned.stderr⟩
  let m := if (m.mapToRule proc.address).isSome then m
    else { m with mapToRule := Function.update m.mapToRule proc.address (some rule) }
  pure (m.id, { m with
    id := (m.id + 1) % 2 ^ 32
    running := proc :: m.running
    pollfds := ⟨m.nextNode + 1, spawned.stderr⟩ :: ⟨m.nextNode, spawned.stdout⟩ :: m.pollfds
    map := Function.update
      (Function.update m.map spawned.stdout (some ⟨proc.address, m.nextNode, true⟩))
      spawned.stderr (some ⟨proc.address, m.nextNode + 1, false⟩)
    nextNode := m.nextNode + 2 })

/-- A read of `fd`, which returns `r`. -/
def readFd (fd : ℕ) (r : ReadResult) (m : PosixSubProcessManager) :
    Outcome PosixSubProcessManager :=
  match m.map fd with
  | none => .error (.assertion .fdMonitored)
  | some info =>
    match m.running.find? (·.address = info.itRunning) with
    | none => .error .nullDereference
    | some proc => do
      let (fdDone, proc, output) ← proc.onFdReady info.isStdout r
      let m := { m with
        running := m.running.map fun p ↦ if p.address = info.itRunning then proc else p
        output := m.output ++ output }
      if fdDone then
        let m := { m with
          pollfds := m.pollfds.filter (·.node ≠ info.itFd)
          map := Function.update m.map fd none }
        if proc.completed then
          pure { m with
            finished := m.finished ++ [proc]
            running := m.running.filter (·.address ≠ info.itRunning) }
        else pure m
      else pure m

/-- The descriptors that `poll` reports, with what a read of each returns. -/
abbrev Round := ℕ → Option ReadResult

def readReady (round : Round) (m : PosixSubProcessManager) (fd : ℕ) :
    Outcome PosixSubProcessManager :=
  match round fd with
  | none => pure m
  | some r => readFd fd r m

/-- The descriptors are those at the beginning of the round. -/
def run (round : Round) (m : PosixSubProcessManager) : Outcome PosixSubProcessManager :=
  (m.pollfds.map (·.fd)).foldlM (readReady round) m

/-- The loop of `waitForNext`, which blocks after the last of the rounds. -/
def pollRounds : List Round → PosixSubProcessManager → Outcome PosixSubProcessManager
  | rounds, m =>
    if m.finished.isEmpty then
      match rounds with
      | [] => .error .outOfFuel
      | round :: rounds => do
        let m ← run round m
        pollRounds rounds m
    else pure m

/-- The process that is handed out is destroyed at the end; `status` is what
`waitpid` says about it. -/
def waitForNext (rounds : List Round) (status : SubProcessExitStatus)
    (m : PosixSubProcessManager) :
    Outcome (PosixSubProcess × BuiltRule × PosixSubProcessManager) := do
  assert (!m.finished.isEmpty || !m.running.isEmpty) .someProcess
  let m ← pollRounds rounds m
  match m.finished with
  | [] => .error .nullDereference
  | proc :: finished =>
    match m.mapToRule proc.address with
    | none => .error (.assertion .processHasRule)
    | some rule => pure (proc, ⟨rule, status, proc.id⟩, { m with
        finished := finished
        mapToRule := Function.update m.mapToRule proc.address none })

/-! ## Runs -/

inductive Label where
  | added (address : ℕ) (rule : RuleId) (id : ℕ)
  | polled (round : Round)
  | returned (address : ℕ) (b : BuiltRule)

/-- The object of a new process and its pipes are new. -/
def Fresh (m : PosixSubProcessManager) (spawned : Spawned) : Prop :=
  (∀ p ∈ m.running ++ m.finished, p.address ≠ spawned.address) ∧
    (∀ p ∈ m.running, ∀ isStdout, p.fdOf isStdout ≠ some spawned.stdout ∧
      p.fdOf isStdout ≠ some spawned.stderr) ∧
    spawned.stdout ≠ spawned.stderr

instance (m : PosixSubProcessManager) (spawned : Spawned) : Decidable (m.Fresh spawned) :=
  inferInstanceAs (Decidable (_ ∧ _ ∧ _))

/-- A rule that is run has a command, and `waitForNext` is not called when
nothing runs. -/
inductive Step (command : RuleId → String) :
    PosixSubProcessManager → Label → PosixSubProcessManager → Prop
  | add {m m' rule spawned id} (hcommand : command rule ≠ "") (hfresh : m.Fresh spawned)
      (hrun : addProcess (command rule) rule spawned m = .ok (id, m')) :
      Step command m (.added spawned.address rule id) m'
  | poll {m m' round} (hrun : run round m = .ok m') : Step command m (.polled round) m'
  | wait {m m' rounds status proc b} (hcall : 0 < m.nbRunning)
      (hrun : waitForNext rounds status m = .ok (proc, b, m')) :
      Step command m (.returned proc.address b) m'

end PosixSubProcessManager

/-! ## Descriptors that have been read to the end -/

namespace PosixSubProcess

/-- The descriptors in `q` are closed. -/
def close (q : ℕ → Bool) (p : PosixSubProcess) : PosixSubProcess :=
  { p with
    stdoutFd := p.stdoutFd.filter fun fd ↦ !q fd
    stderrFd := p.stderrFd.filter fun fd ↦ !q fd }

variable {p : PosixSubProcess} {q q' : ℕ → Bool} {fd : ℕ} {b : Bool}

@[simp] theorem close_address : (p.close q).address = p.address := rfl

@[simp] theorem close_id : (p.close q).id = p.id := rfl

theorem fdOf_close : (p.close q).fdOf b = some fd ↔ p.fdOf b = some fd ∧ q fd = false := by
  cases b <;> simp [fdOf, close, Option.filter_eq_some_iff]

theorem close_close : (p.close q).close q' = p.close fun fd ↦ q fd || q' fd := by
  simp [close, Option.filter_filter]

theorem completed_iff : p.completed = true ↔ ∀ b fd, p.fdOf b ≠ some fd := by
  constructor
  · intro h b fd
    simp only [completed, Bool.and_eq_true, Option.isNone_iff_eq_none] at h
    cases b <;> simp [fdOf, h]
  · intro h
    simp only [completed, Bool.and_eq_true, Option.isNone_iff_eq_none,
      Option.eq_none_iff_forall_ne_some]
    exact ⟨fun fd ↦ h true fd, fun fd ↦ h false fd⟩

theorem not_completed_iff : p.completed = false ↔ ∃ b fd, p.fdOf b = some fd := by
  rw [← Bool.not_eq_true, completed_iff]
  simp only [ne_eq, not_forall, not_not]

theorem close_congr (h : ∀ b fd, p.fdOf b = some fd → q fd = q' fd) : p.close q = p.close q' := by
  have hstdout := h true
  have hstderr := h false
  simp only [fdOf, if_true, Bool.false_eq_true, if_false] at hstdout hstderr
  obtain ⟨address, id, stdoutFd, stderrFd⟩ := p
  cases stdoutFd <;> cases stderrFd <;> simp_all [close, Option.filter]

theorem close_of_open (h : ∀ b fd, p.fdOf b = some fd → q fd = false) : p.close q = p := by
  have hnone : p.close q = p.close fun _ ↦ false := close_congr h
  rw [hnone]
  obtain ⟨address, id, stdoutFd, stderrFd⟩ := p
  cases stdoutFd <;> cases stderrFd <;> rfl

theorem close_of_completed (h : p.completed = true) : p.close q = p :=
  close_of_open fun b fd hfd ↦ absurd hfd (completed_iff.mp h b fd)

/-- Closing one descriptor, which is not also the other one. -/
theorem close_eq_closeFd (hfd : p.fdOf b = some fd) (hother : p.fdOf (!b) ≠ some fd) :
    p.close (fun x ↦ x == fd) = p.closeFd b := by
  obtain ⟨address, id, stdoutFd, stderrFd⟩ := p
  cases b <;> cases stdoutFd <;> cases stderrFd <;>
    simp_all [fdOf, close, closeFd, Option.filter]

theorem filter_open_close (l : List PosixSubProcess) :
    (((l.map (·.close q)).filter fun p ↦ !p.completed).map (·.close q')).filter
      (fun p ↦ !p.completed) =
    (l.map (·.close fun fd ↦ q fd || q' fd)).filter fun p ↦ !p.completed := by
  induction l with
  | nil => rfl
  | cons p l ih =>
      rw [List.map_cons, List.map_cons, ← close_close]
      by_cases hp : (p.close q).completed = true
      · rw [List.filter_cons_of_neg (by simp [hp]), close_of_completed hp,
          List.filter_cons_of_neg (by simp [hp])]
        exact ih
      · rw [List.filter_cons_of_pos (by simp [hp]), List.map_cons]
        by_cases hp' : ((p.close q).close q').completed = true
        · rw [List.filter_cons_of_neg (by simp [hp']), List.filter_cons_of_neg (by simp [hp'])]
          exact ih
        · rw [List.filter_cons_of_pos (by simp [hp']), List.filter_cons_of_pos (by simp [hp']), ih]

theorem filter_completed_close (l : List PosixSubProcess) :
    ((l.map (·.close q)).filter (·.completed) ++
      ((((l.map (·.close q)).filter fun p ↦ !p.completed).map (·.close q')).filter
        (·.completed))).Perm
    ((l.map (·.close fun fd ↦ q fd || q' fd)).filter (·.completed)) := by
  induction l with
  | nil => rfl
  | cons p l ih =>
      rw [List.map_cons, List.map_cons, ← close_close]
      by_cases hp : (p.close q).completed = true
      · rw [List.filter_cons_of_pos hp, List.filter_cons_of_neg (by simp [hp]),
          close_of_completed hp, List.filter_cons_of_pos hp, List.cons_append]
        exact ih.cons _
      · rw [List.filter_cons_of_neg hp, List.filter_cons_of_pos (by simp [hp]), List.map_cons]
        by_cases hp' : ((p.close q).close q').completed = true
        · rw [List.filter_cons_of_pos hp', List.filter_cons_of_pos hp']
          exact List.perm_middle.trans (ih.cons _)
        · rw [List.filter_cons_of_neg hp', List.filter_cons_of_neg hp']
          exact ih

end PosixSubProcess

namespace PosixSubProcessManager

variable {m m' m'' : PosixSubProcessManager} {q q' : ℕ → Bool} {fd : ℕ}

/-- The cross-references between the containers are in order. -/
structure Tidy (m : PosixSubProcessManager) : Prop where
  addresses : ((m.running ++ m.finished).map PosixSubProcess.address).Nodup
  nodes : (m.pollfds.map PollFd.node).Nodup
  fresh : ∀ e ∈ m.pollfds, e.node < m.nextNode
  known : ∀ fd info, m.map fd = some info → ∃ p ∈ m.running, p.address = info.itRunning ∧
    p.fdOf info.isStdout = some fd ∧ ⟨info.itFd, fd⟩ ∈ m.pollfds
  mapped : ∀ p ∈ m.running, ∀ isStdout fd, p.fdOf isStdout = some fd →
    ∃ itFd, m.map fd = some ⟨p.address, itFd, isStdout⟩
  polled : ∀ e ∈ m.pollfds, ∃ info, m.map e.fd = some info ∧ info.itFd = e.node
  running : ∀ p ∈ m.running, p.completed = false
  finished : ∀ p ∈ m.finished, p.completed = true
  rules : ∀ address, (m.mapToRule address).isSome = true ↔
    ∃ p ∈ m.running ++ m.finished, p.address = address

/-- The descriptors in `q` have been read to the end, and the processes that
have no other ones are finished. -/
structure Closed (q : ℕ → Bool) (m m' : PosixSubProcessManager) : Prop where
  running : m'.running = (m.running.map (·.close q)).filter fun p ↦ !p.completed
  finished : ∃ moved, m'.finished = m.finished ++ moved ∧
    moved.Perm ((m.running.map (·.close q)).filter (·.completed))
  pollfds : m'.pollfds = m.pollfds.filter fun e ↦ !q e.fd
  map : ∀ fd, m'.map fd = if q fd then none else m.map fd
  mapToRule : m'.mapToRule = m.mapToRule
  nextNode : m'.nextNode = m.nextNode
  id : m'.id = m.id

theorem Tidy.closed_refl (h : m.Tidy) (hq : ∀ fd, q fd = false) (hrunning : m'.running = m.running)
    (hfinished : m'.finished = m.finished) (hpollfds : m'.pollfds = m.pollfds)
    (hmap : m'.map = m.map) (hrules : m'.mapToRule = m.mapToRule)
    (hnode : m'.nextNode = m.nextNode) (hid : m'.id = m.id) : Closed q m m' := by
  have hsame : m.running.map (·.close q) = m.running :=
    (List.map_congr_left fun p _ ↦ PosixSubProcess.close_of_open fun _ fd _ ↦ hq fd).trans
      (List.map_id _)
  refine ⟨?_, ⟨[], ?_, ?_⟩, ?_, ?_, hrules, hnode, hid⟩
  · rw [hsame, hrunning]
    exact (List.filter_eq_self.mpr fun p hp ↦ by simp [h.running p hp]).symm
  · rw [hfinished, List.append_nil]
  · rw [hsame, List.filter_eq_nil_iff.mpr fun p hp ↦ by simp [h.running p hp]]
  · rw [hpollfds]
    exact (List.filter_eq_self.mpr fun e _ ↦ by simp [hq]).symm
  · intro fd
    rw [hmap, hq]
    rfl

theorem Closed.trans (h : Closed q m m') (h' : Closed q' m' m'') :
    Closed (fun fd ↦ q fd || q' fd) m m'' := by
  obtain ⟨moved, hfinished, hmoved⟩ := h.finished
  obtain ⟨moved', hfinished', hmoved'⟩ := h'.finished
  refine ⟨?_, ⟨moved ++ moved', ?_, ?_⟩, ?_, ?_, h'.mapToRule.trans h.mapToRule,
    h'.nextNode.trans h.nextNode, h'.id.trans h.id⟩
  · rw [h'.running, h.running]
    exact PosixSubProcess.filter_open_close m.running
  · rw [hfinished', hfinished, List.append_assoc]
  · rw [h.running] at hmoved'
    exact (hmoved.append hmoved').trans (PosixSubProcess.filter_completed_close m.running)
  · rw [h'.pollfds, h.pollfds, List.filter_filter]
    refine List.filter_congr fun e _ ↦ ?_
    rw [Bool.not_or, Bool.and_comm]
  · intro fd
    rw [h'.map, h.map]
    cases q fd <;> cases q' fd <;> rfl

/-- The processes after some descriptors have been closed are those before. -/
theorem Closed.perm (h : Closed q m m') : (m'.running ++ m'.finished).Perm
    (m.running.map (·.close q) ++ m.finished) := by
  obtain ⟨moved, hfinished, hmoved⟩ := h.finished
  have hsplit := List.filter_append_perm (fun p : PosixSubProcess ↦ p.completed)
    (m.running.map (·.close q))
  have hmiddle : (m'.running ++ moved).Perm (m.running.map (·.close q)) := by
    rw [h.running]
    exact (List.perm_append_comm.trans (hmoved.append_right _)).trans hsplit
  have hcomm : (m'.running ++ (m.finished ++ moved)).Perm (m'.running ++ moved ++ m.finished) := by
    rw [List.append_assoc]
    exact List.perm_append_comm.append_left _
  rw [hfinished]
  exact hcomm.trans (hmiddle.append_right _)

theorem Closed.addresses (h : Closed q m m') :
    ((m'.running ++ m'.finished).map PosixSubProcess.address).Perm
      ((m.running ++ m.finished).map PosixSubProcess.address) := by
  have hperm := h.perm.map PosixSubProcess.address
  simp only [List.map_append, List.map_map] at hperm ⊢
  exact hperm

theorem Closed.mem_running (h : Closed q m m') {p : PosixSubProcess} :
    p ∈ m'.running ↔ p.completed = false ∧ ∃ p₀ ∈ m.running, p₀.close q = p := by
  rw [h.running, List.mem_filter, List.mem_map, Bool.not_eq_true', and_comm]

theorem Tidy.closed (h : m.Tidy) (hclosed : Closed q m m') : m'.Tidy where
  addresses := hclosed.addresses.nodup_iff.mpr h.addresses
  nodes := by
    rw [hclosed.pollfds]
    exact (List.filter_sublist.map _).nodup h.nodes
  fresh e he := by
    rw [hclosed.pollfds] at he
    rw [hclosed.nextNode]
    exact h.fresh e (List.mem_of_mem_filter he)
  known fd info hinfo := by
    rw [hclosed.map] at hinfo
    cases hq : q fd with
    | true => simp [hq] at hinfo
    | false =>
        rw [hq] at hinfo
        obtain ⟨p, hp, haddress, hfd, hpoll⟩ := h.known fd info hinfo
        have hfd' := PosixSubProcess.fdOf_close.mpr ⟨hfd, hq⟩
        refine ⟨p.close q, hclosed.mem_running.mpr ⟨?_, p, hp, rfl⟩, haddress, hfd', ?_⟩
        · exact PosixSubProcess.not_completed_iff.mpr ⟨_, fd, hfd'⟩
        · rw [hclosed.pollfds, List.mem_filter]
          exact ⟨hpoll, by simp [hq]⟩
  mapped p hp isStdout fd hfd := by
    obtain ⟨-, p₀, hp₀, rfl⟩ := hclosed.mem_running.mp hp
    obtain ⟨hfd₀, hq⟩ := PosixSubProcess.fdOf_close.mp hfd
    obtain ⟨itFd, hmap⟩ := h.mapped p₀ hp₀ isStdout fd hfd₀
    refine ⟨itFd, ?_⟩
    rw [hclosed.map, hq]
    exact hmap
  polled e he := by
    rw [hclosed.pollfds, List.mem_filter, Bool.not_eq_true'] at he
    obtain ⟨info, hinfo, hnode⟩ := h.polled e he.1
    refine ⟨info, ?_, hnode⟩
    rw [hclosed.map, he.2]
    exact hinfo
  running p hp := (hclosed.mem_running.mp hp).1
  finished p hp := by
    obtain ⟨moved, hfinished, hmoved⟩ := hclosed.finished
    rw [hfinished, List.mem_append] at hp
    rcases hp with hp | hp
    · exact h.finished p hp
    · exact (List.mem_filter.mp (hmoved.mem_iff.mp hp)).2
  rules address := by
    have hmem := hclosed.addresses.mem_iff (a := address)
    rw [List.mem_map, List.mem_map] at hmem
    rw [hclosed.mapToRule, h.rules, hmem]

/-! ## One poll round -/

theorem Tidy.eq_of_address (h : m.Tidy) {p p' : PosixSubProcess} (hp : p ∈ m.running)
    (hp' : p' ∈ m.running) (heq : p.address = p'.address) : p = p' :=
  List.inj_on_of_nodup_map h.addresses (List.mem_append_left _ hp) (List.mem_append_left _ hp') heq

/-- A descriptor is open in one process, as its output or its error. -/
theorem Tidy.eq_of_fdOf (h : m.Tidy) {p p' : PosixSubProcess} {b b' : Bool} (hp : p ∈ m.running)
    (hp' : p' ∈ m.running) (hfd : p.fdOf b = some fd) (hfd' : p'.fdOf b' = some fd) :
    p = p' ∧ b = b' := by
  obtain ⟨itFd, hmap⟩ := h.mapped p hp b fd hfd
  obtain ⟨itFd', hmap'⟩ := h.mapped p' hp' b' fd hfd'
  have hinfo := Option.some.inj (hmap.symm.trans hmap')
  exact ⟨h.eq_of_address hp hp' (congrArg FdInfo.itRunning hinfo), congrArg FdInfo.isStdout hinfo⟩

theorem Tidy.find?_running (h : m.Tidy) {p : PosixSubProcess} (hp : p ∈ m.running) :
    m.running.find? (·.address = p.address) = some p := by
  obtain ⟨x, hx⟩ : ∃ x, m.running.find? (·.address = p.address) = some x := by
    rw [← Option.isSome_iff_exists, List.find?_isSome]
    exact ⟨p, hp, by simp⟩
  rw [hx, h.eq_of_address (List.mem_of_find?_eq_some hx) hp (by simpa using List.find?_some hx)]

/-- The entry of a monitored descriptor in `pollfds_`. -/
theorem Tidy.filter_pollfds (h : m.Tidy) {info : FdInfo} (hinfo : m.map fd = some info) :
    m.pollfds.filter (·.node ≠ info.itFd) = m.pollfds.filter fun e ↦ !(e.fd == fd) := by
  obtain ⟨-, -, -, -, hpoll⟩ := h.known fd info hinfo
  refine List.filter_congr fun e he ↦ ?_
  by_cases hfd : e.fd = fd
  · obtain ⟨info', hinfo', hnode⟩ := h.polled e he
    rw [hfd, hinfo] at hinfo'
    obtain rfl := Option.some.inj hinfo'
    simp [hfd, hnode]
  · have hne : e.node ≠ info.itFd := by
      intro hnode
      have heq : e = ⟨info.itFd, fd⟩ := List.inj_on_of_nodup_map h.nodes he hpoll hnode
      exact hfd (congrArg PollFd.fd heq)
    simp [hfd, hne]

/-- Closing a descriptor leaves the other processes as they are. -/
theorem Tidy.close_other (h : m.Tidy) {p x : PosixSubProcess} {b : Bool} (hp : p ∈ m.running)
    (hfd : p.fdOf b = some fd) (hx : x ∈ m.running) (hne : x ≠ p) :
    x.close (fun y ↦ y == fd) = x := by
  refine PosixSubProcess.close_of_open fun b' fd' hfd' ↦ ?_
  rw [beq_eq_false_iff_ne]
  rintro rfl
  exact hne (h.eq_of_fdOf hx hp hfd' hfd).1

theorem Tidy.map_close (h : m.Tidy) {p : PosixSubProcess} {b : Bool} (hp : p ∈ m.running)
    (hfd : p.fdOf b = some fd) :
    (m.running.map fun x ↦ if x.address = p.address then p.close (fun y ↦ y == fd) else x) =
      m.running.map (·.close fun y ↦ y == fd) := by
  refine List.map_congr_left fun x hx ↦ ?_
  by_cases heq : x = p
  · rw [if_pos (congrArg PosixSubProcess.address heq), heq]
  · rw [if_neg fun haddress ↦ heq (h.eq_of_address hx hp haddress), h.close_other hp hfd hx heq]

/-- Only the process of the descriptor can be finished by closing it. -/
theorem Tidy.completed_close (h : m.Tidy) {p x : PosixSubProcess} {b : Bool} (hp : p ∈ m.running)
    (hfd : p.fdOf b = some fd) (hx : x ∈ m.running)
    (hcompleted : (x.close fun y ↦ y == fd).completed = true) : x = p := by
  by_contra hne
  rw [h.close_other hp hfd hx hne, h.running x hx] at hcompleted
  cases hcompleted

theorem Tidy.filter_completed (h : m.Tidy) {p : PosixSubProcess} {b : Bool} (hp : p ∈ m.running)
    (hfd : p.fdOf b = some fd) (hcompleted : (p.close fun y ↦ y == fd).completed = true) :
    (m.running.map (·.close fun y ↦ y == fd)).filter (·.completed) =
      [p.close fun y ↦ y == fd] := by
  have hcongr : (m.running.map (·.close fun y ↦ y == fd)).filter (·.completed) =
      (m.running.map (·.close fun y ↦ y == fd)).filter (· == p.close fun y ↦ y == fd) := by
    refine List.filter_congr fun y hy ↦ ?_
    obtain ⟨x, hx, rfl⟩ := List.mem_map.mp hy
    rw [Bool.eq_iff_iff, beq_iff_eq]
    constructor
    · intro hdone
      rw [h.completed_close hp hfd hx hdone]
    · intro heq
      rw [heq]
      exact hcompleted
  have hnodup : (m.running.map (·.close fun y ↦ y == fd)).Nodup := by
    refine List.Nodup.of_map PosixSubProcess.address ?_
    have hnd := h.addresses
    rw [List.map_append] at hnd
    rw [List.map_map]
    exact hnd.of_append_left
  rw [hcongr, List.filter_beq, List.count_eq_one_of_mem hnodup (List.mem_map_of_mem hp)]
  rfl

theorem Tidy.filter_running (h : m.Tidy) {p : PosixSubProcess} {b : Bool} (hp : p ∈ m.running)
    (hfd : p.fdOf b = some fd) (hcompleted : (p.close fun y ↦ y == fd).completed = true) :
    (m.running.map (·.close fun y ↦ y == fd)).filter (·.address ≠ p.address) =
      (m.running.map (·.close fun y ↦ y == fd)).filter fun x ↦ !x.completed := by
  refine List.filter_congr fun y hy ↦ ?_
  obtain ⟨x, hx, rfl⟩ := List.mem_map.mp hy
  by_cases heq : x = p
  · simp [heq, hcompleted]
  · have hne : x.address ≠ p.address := fun haddress ↦ heq (h.eq_of_address hx hp haddress)
    have hopen : (x.close fun y ↦ y == fd).completed = false := by
      rw [← Bool.not_eq_true]
      exact fun hdone ↦ heq (h.completed_close hp hfd hx hdone)
    simp [hne, hopen]

theorem Tidy.readFd (h : m.Tidy) (hfd : (m.map fd).isSome = true) (r : ReadResult) :
    ∃ m', readFd fd r m = .ok m' ∧ Closed (fun x ↦ x == fd && r == .eof) m m' := by
  obtain ⟨info, hinfo⟩ := Option.isSome_iff_exists.mp hfd
  obtain ⟨p, hp, haddress, hpfd, -⟩ := h.known fd info hinfo
  have hfind := h.find?_running hp
  rw [haddress] at hfind
  rw [PosixSubProcessManager.readFd, hinfo]
  simp only [hfind, PosixSubProcess.onFdReady, hpfd, Option.isSome_some, assert_true,
    Lib.except_ok_bind]
  cases r with
  | data buf =>
      refine ⟨_, rfl, h.closed_refl (by simp) ?_ rfl rfl rfl rfl rfl rfl⟩
      refine (List.map_congr_left fun x hx ↦ ?_).trans (List.map_id _)
      split
      · rename_i heq
        exact h.eq_of_address hp hx (haddress.trans heq.symm)
      · rfl
  | eof =>
      have hclose : p.closeFd info.isStdout = p.close fun y ↦ y == fd := by
        refine (PosixSubProcess.close_eq_closeFd hpfd fun hother ↦ ?_).symm
        have hb := (h.eq_of_fdOf hp hp hpfd hother).2
        cases hstdout : info.isStdout <;> simp [hstdout] at hb
      have hmap := h.map_close hp hpfd
      rw [haddress] at hmap
      simp only [Lib.except_pure, Lib.except_ok_bind, hclose, hmap, h.filter_pollfds hinfo, if_true]
      have hmapFd : ∀ x, Function.update m.map fd none x =
          if (x == fd) = true then none else m.map x := by
        intro x
        simp [Function.update_apply]
      have hq : (fun x ↦ x == fd && ReadResult.eof == .eof) = fun x ↦ x == fd := by
        simp
      rw [hq]
      cases hcompleted : (p.close fun y ↦ y == fd).completed with
      | true =>
          simp only [if_true]
          refine ⟨_, rfl, ?_, ⟨[p.close fun y ↦ y == fd], rfl, ?_⟩, rfl, hmapFd, rfl, rfl, rfl⟩
          · have hrunning := h.filter_running hp hpfd hcompleted
            rw [haddress] at hrunning
            exact hrunning
          · rw [h.filter_completed hp hpfd hcompleted]
      | false =>
          have hopen : ∀ y ∈ m.running.map (·.close fun y ↦ y == fd), y.completed = false := by
            intro y hy
            obtain ⟨x, hx, rfl⟩ := List.mem_map.mp hy
            rw [← Bool.not_eq_true]
            intro hdone
            rw [h.completed_close hp hpfd hx hdone, hcompleted] at hdone
            cases hdone
          simp only [Bool.false_eq_true, if_false]
          refine ⟨_, rfl, ?_, ⟨[], (List.append_nil _).symm, ?_⟩, rfl, hmapFd, rfl, rfl, rfl⟩
          · exact (List.filter_eq_self.mpr fun y hy ↦ by simp [hopen y hy]).symm
          · rw [List.filter_eq_nil_iff.mpr fun y hy ↦ by simp [hopen y hy]]

/-- Only the descriptors that are monitored matter. -/
theorem Tidy.closed_congr (h : m.Tidy) (hclosed : Closed q m m')
    (hq : ∀ fd, (m.map fd).isSome = true → q fd = q' fd) : Closed q' m m' := by
  have hclose : m.running.map (·.close q) = m.running.map (·.close q') := by
    refine List.map_congr_left fun p hp ↦ PosixSubProcess.close_congr fun b fd hfd ↦ hq fd ?_
    obtain ⟨itFd, hmap⟩ := h.mapped p hp b fd hfd
    rw [hmap]
    rfl
  refine ⟨?_, ?_, ?_, ?_, hclosed.mapToRule, hclosed.nextNode, hclosed.id⟩
  · rw [← hclose]
    exact hclosed.running
  · rw [← hclose]
    exact hclosed.finished
  · rw [hclosed.pollfds]
    refine List.filter_congr fun e he ↦ ?_
    obtain ⟨info, hinfo, -⟩ := h.polled e he
    rw [hq e.fd (by rw [hinfo]; rfl)]
  · intro fd
    rw [hclosed.map]
    cases hmap : m.map fd with
    | none => simp
    | some info => rw [hq fd (by rw [hmap]; rfl)]

theorem Tidy.nodup_fds (h : m.Tidy) : (m.pollfds.map PollFd.fd).Nodup := by
  refine List.Nodup.map_on ?_ (List.Nodup.of_map _ h.nodes)
  intro e he e' he' heq
  obtain ⟨info, hinfo, hnode⟩ := h.polled e he
  obtain ⟨info', hinfo', hnode'⟩ := h.polled e' he'
  rw [heq, hinfo'] at hinfo
  obtain rfl := Option.some.inj hinfo
  exact List.inj_on_of_nodup_map h.nodes he he' (hnode.symm.trans hnode')

/-- The descriptors before `pre` in the snapshot have been read. -/
structure Walk (round : Round) (m : PosixSubProcessManager) (pre : List ℕ)
    (t : PosixSubProcessManager) : Prop where
  tidy : t.Tidy
  closed : Closed (fun fd ↦ pre.contains fd && round fd == some .eof) m t

theorem Walk.step {round : Round} {pre post : List ℕ} {t : PosixSubProcessManager} (h : m.Tidy)
    (hpre : m.pollfds.map PollFd.fd = pre ++ fd :: post) (ht : Walk round m pre t) :
    ∃ t', readReady round t fd = .ok t' ∧ Walk round m (pre ++ [fd]) t' := by
  have hnot : fd ∉ pre := by
    have hnodup := h.nodup_fds
    rw [hpre, List.nodup_append] at hnodup
    exact fun hmem ↦ hnodup.2.2 fd hmem fd List.mem_cons_self rfl
  have hmonitored : (t.map fd).isSome = true := by
    obtain ⟨e, he, rfl⟩ : ∃ e ∈ m.pollfds, e.fd = fd := by
      rw [← List.mem_map, hpre]
      simp
    obtain ⟨info, hinfo, -⟩ := h.polled e he
    rw [ht.closed.map]
    simp [hnot, hinfo]
  rw [readReady]
  cases hround : round fd with
  | none =>
      refine ⟨t, rfl, ht.tidy, h.closed_congr ht.closed fun x _ ↦ ?_⟩
      by_cases hx : x = fd
      · simp [hx, hround]
      · simp [hx]
  | some r =>
      obtain ⟨t', hrun, hclosed⟩ := ht.tidy.readFd hmonitored r
      refine ⟨t', hrun, ht.tidy.closed hclosed, h.closed_congr (ht.closed.trans hclosed) ?_⟩
      intro x _
      by_cases hx : x = fd
      · simp [hx, hround, hnot]
      · simp [hx]

/-- The walk over the snapshot reads every descriptor that is ready once. -/
theorem Tidy.run (h : m.Tidy) (round : Round) :
    ∃ m', run round m = .ok m' ∧ Closed (fun fd ↦ round fd == some .eof) m m' := by
  have hstart : Walk round m [] m :=
    ⟨h, h.closed_refl (by simp) rfl rfl rfl rfl rfl rfl rfl⟩
  obtain ⟨m', hrun, hwalk⟩ := Lib.foldlM_rule (Walk round m) hstart
    fun pre fd post t hpre ht ↦ ht.step h hpre
  refine ⟨m', hrun, h.closed_congr hwalk.closed fun fd hfd ↦ ?_⟩
  obtain ⟨info, hinfo⟩ := Option.isSome_iff_exists.mp hfd
  obtain ⟨-, -, -, -, hpoll⟩ := h.known fd info hinfo
  have hmem : fd ∈ m.pollfds.map PollFd.fd := List.mem_map_of_mem (f := PollFd.fd) hpoll
  simp only [List.contains_iff_mem.mpr hmem, Bool.true_and]

/-! ## A new process -/

theorem Tidy.monitored_iff (h : m.Tidy) :
    (m.map fd).isSome = true ↔ ∃ p ∈ m.running, ∃ isStdout, p.fdOf isStdout = some fd := by
  constructor
  · intro hsome
    obtain ⟨info, hinfo⟩ := Option.isSome_iff_exists.mp hsome
    obtain ⟨p, hp, -, hfd, -⟩ := h.known fd info hinfo
    exact ⟨p, hp, _, hfd⟩
  · rintro ⟨p, hp, isStdout, hfd⟩
    obtain ⟨itFd, hmap⟩ := h.mapped p hp isStdout fd hfd
    rw [hmap]
    rfl

theorem Tidy.polled_iff (h : m.Tidy) :
    fd ∈ m.pollfds.map PollFd.fd ↔ ∃ p ∈ m.running, ∃ isStdout, p.fdOf isStdout = some fd := by
  rw [← h.monitored_iff, List.mem_map]
  constructor
  · rintro ⟨e, he, rfl⟩
    obtain ⟨info, hinfo, -⟩ := h.polled e he
    rw [hinfo]
    rfl
  · intro hsome
    obtain ⟨info, hinfo⟩ := Option.isSome_iff_exists.mp hsome
    obtain ⟨-, -, -, -, hpoll⟩ := h.known fd info hinfo
    exact ⟨_, hpoll, rfl⟩

/-- The manager after `addProcess`. -/
def added (rule : RuleId) (spawned : Spawned) (m : PosixSubProcessManager) :
    PosixSubProcessManager :=
  { m with
    id := (m.id + 1) % 2 ^ 32
    running := ⟨spawned.address, m.id, some spawned.stdout, some spawned.stderr⟩ :: m.running
    pollfds := ⟨m.nextNode + 1, spawned.stderr⟩ :: ⟨m.nextNode, spawned.stdout⟩ :: m.pollfds
    map := Function.update
      (Function.update m.map spawned.stdout (some ⟨spawned.address, m.nextNode, true⟩))
      spawned.stderr (some ⟨spawned.address, m.nextNode + 1, false⟩)
    mapToRule := Function.update m.mapToRule spawned.address (some rule)
    nextNode := m.nextNode + 2 }

theorem Tidy.addProcess (h : m.Tidy) {command : String} (hcommand : command ≠ "") {rule : RuleId}
    {spawned : Spawned} (hfresh : m.Fresh spawned) :
    addProcess command rule spawned m = .ok (m.id, m.added rule spawned) := by
  have hrule : (m.mapToRule spawned.address).isSome = false := by
    rw [← Bool.not_eq_true, h.rules]
    rintro ⟨p, hp, haddress⟩
    exact hfresh.1 p hp haddress
  simp [PosixSubProcessManager.addProcess, hcommand, hrule, PosixSubProcessManager.added]

section Added

variable {spawned : Spawned} {rule : RuleId} {fd : ℕ} {info : FdInfo}

theorem added_map_stderr : (m.added rule spawned).map spawned.stderr =
    some ⟨spawned.address, m.nextNode + 1, false⟩ :=
  Function.update_self ..

theorem added_map_stdout (hne : spawned.stdout ≠ spawned.stderr) :
    (m.added rule spawned).map spawned.stdout = some ⟨spawned.address, m.nextNode, true⟩ :=
  (Function.update_of_ne hne ..).trans (Function.update_self ..)

theorem added_map_of_ne (hstdout : fd ≠ spawned.stdout) (hstderr : fd ≠ spawned.stderr) :
    (m.added rule spawned).map fd = m.map fd :=
  (Function.update_of_ne hstderr ..).trans (Function.update_of_ne hstdout ..)

/-- A descriptor that is monitored is none of the new ones. -/
theorem Tidy.added_map (h : m.Tidy) (hfresh : m.Fresh spawned) (hmap : m.map fd = some info) :
    (m.added rule spawned).map fd = some info := by
  obtain ⟨p, hp, isStdout, hopen⟩ := h.monitored_iff.mp (Option.isSome_of_eq_some hmap)
  obtain ⟨hstdout, hstderr⟩ := hfresh.2.1 p hp isStdout
  rw [added_map_of_ne, hmap]
  · rintro rfl
    exact hstdout hopen
  · rintro rfl
    exact hstderr hopen

theorem Tidy.nodes_added (h : m.Tidy) :
    ((m.added rule spawned).pollfds.map PollFd.node).Nodup := by
  have hlt : ∀ k ∈ m.pollfds.map PollFd.node, k < m.nextNode := by
    intro k hk
    obtain ⟨e, he, rfl⟩ := List.mem_map.mp hk
    exact h.fresh e he
  refine List.nodup_cons.mpr ⟨?_, List.nodup_cons.mpr ⟨?_, h.nodes⟩⟩
  · intro hmem
    rcases List.mem_cons.mp hmem with heq | hmem
    · simp at heq
    · exact absurd (hlt _ hmem) (by simp)
  · exact fun hmem ↦ absurd (hlt _ hmem) (by simp)

theorem Tidy.fresh_added (h : m.Tidy) :
    ∀ e ∈ (m.added rule spawned).pollfds, e.node < (m.added rule spawned).nextNode := by
  intro e he
  simp only [PosixSubProcessManager.added, List.mem_cons] at he ⊢
  rcases he with rfl | rfl | he
  · exact Nat.lt_succ_self _
  · exact Nat.lt_add_of_pos_right (by decide)
  · exact Nat.lt_add_right 2 (h.fresh e he)

theorem Tidy.known_added (h : m.Tidy) (hfresh : m.Fresh spawned)
    (hmap : (m.added rule spawned).map fd = some info) :
    ∃ p ∈ (m.added rule spawned).running, p.address = info.itRunning ∧
      p.fdOf info.isStdout = some fd ∧ ⟨info.itFd, fd⟩ ∈ (m.added rule spawned).pollfds := by
  by_cases hstderr : fd = spawned.stderr
  · subst hstderr
    rw [added_map_stderr] at hmap
    obtain rfl := Option.some.inj hmap
    exact ⟨_, List.mem_cons_self, rfl, rfl, List.mem_cons_self⟩
  · by_cases hstdout : fd = spawned.stdout
    · subst hstdout
      rw [added_map_stdout hfresh.2.2] at hmap
      obtain rfl := Option.some.inj hmap
      exact ⟨_, List.mem_cons_self, rfl, rfl, List.mem_cons_of_mem _ List.mem_cons_self⟩
    · rw [added_map_of_ne hstdout hstderr] at hmap
      obtain ⟨p, hp, heq, hfd, hpoll⟩ := h.known fd info hmap
      exact ⟨p, List.mem_cons_of_mem _ hp, heq, hfd,
        List.mem_cons_of_mem _ (List.mem_cons_of_mem _ hpoll)⟩

theorem Tidy.mapped_added (h : m.Tidy) (hfresh : m.Fresh spawned) {p : PosixSubProcess}
    (hp : p ∈ (m.added rule spawned).running) {isStdout : Bool} (hfd : p.fdOf isStdout = some fd) :
    ∃ itFd, (m.added rule spawned).map fd = some ⟨p.address, itFd, isStdout⟩ := by
  rcases List.mem_cons.mp hp with rfl | hp
  · cases isStdout with
    | true =>
        obtain rfl := Option.some.inj hfd
        exact ⟨m.nextNode, added_map_stdout hfresh.2.2⟩
    | false =>
        obtain rfl := Option.some.inj hfd
        exact ⟨m.nextNode + 1, added_map_stderr⟩
  · obtain ⟨itFd, hmap⟩ := h.mapped p hp isStdout fd hfd
    exact ⟨itFd, h.added_map hfresh hmap⟩

theorem Tidy.polled_added (h : m.Tidy) (hfresh : m.Fresh spawned) {e : PollFd}
    (he : e ∈ (m.added rule spawned).pollfds) :
    ∃ info, (m.added rule spawned).map e.fd = some info ∧ info.itFd = e.node := by
  rcases List.mem_cons.mp he with rfl | he
  · exact ⟨_, added_map_stderr, rfl⟩
  · rcases List.mem_cons.mp he with rfl | he
    · exact ⟨_, added_map_stdout hfresh.2.2, rfl⟩
    · obtain ⟨info, hinfo, hnode⟩ := h.polled e he
      exact ⟨info, h.added_map hfresh hinfo, hnode⟩

theorem Tidy.added (h : m.Tidy) (rule : RuleId) (hfresh : m.Fresh spawned) :
    (m.added rule spawned).Tidy where
  addresses := by
    refine List.nodup_cons.mpr ⟨?_, h.addresses⟩
    intro hmem
    obtain ⟨p, hp, heq⟩ := List.mem_map.mp hmem
    exact hfresh.1 p hp heq
  nodes := h.nodes_added
  fresh := h.fresh_added
  known fd info hmap := h.known_added hfresh hmap
  mapped p hp isStdout fd hfd := h.mapped_added hfresh hp hfd
  polled e he := h.polled_added hfresh he
  running p hp := by
    rcases List.mem_cons.mp hp with rfl | hp
    · rfl
    · exact h.running p hp
  finished := h.finished
  rules address := by
    simp only [PosixSubProcessManager.added, Function.update_apply, List.cons_append,
      List.mem_cons, exists_eq_or_imp]
    by_cases heq : address = spawned.address
    · simp [heq]
    · rw [if_neg heq, h.rules, or_iff_right (Ne.symm heq)]

end Added

/-! ## Handing out a process -/

theorem Closed.nbRunning (h : Closed q m m') : m'.nbRunning = m.nbRunning := by
  have hlength := h.perm.length_eq
  simpa [PosixSubProcessManager.nbRunning] using hlength

/-- `waitForNext` polls until a process is finished.  It blocks only as long as
each process has a descriptor that has not been read to the end. -/
theorem Tidy.pollRounds (h : m.Tidy) (rounds : List Round) :
    (∃ m' q, pollRounds rounds m = .ok m' ∧ Closed q m m' ∧ m'.finished ≠ []) ∨
      pollRounds rounds m = .error .outOfFuel ∧ m.finished = [] ∧
        ∀ p ∈ m.running, ∃ isStdout fd, p.fdOf isStdout = some fd ∧
          ∀ round ∈ rounds, round fd ≠ some .eof := by
  induction rounds generalizing m with
  | nil =>
      rw [PosixSubProcessManager.pollRounds]
      cases hfinished : m.finished with
      | nil =>
          refine Or.inr ⟨rfl, rfl, fun p hp ↦ ?_⟩
          obtain ⟨isStdout, fd, hfd⟩ := PosixSubProcess.not_completed_iff.mp (h.running p hp)
          exact ⟨isStdout, fd, hfd, by simp⟩
      | cons p finished =>
          refine Or.inl ⟨m, fun _ ↦ false, rfl, ?_, by simp [hfinished]⟩
          exact h.closed_refl (fun _ ↦ rfl) rfl rfl rfl rfl rfl rfl rfl
  | cons round rounds ih =>
      rw [PosixSubProcessManager.pollRounds]
      cases hfinished : m.finished with
      | cons p finished =>
          refine Or.inl ⟨m, fun _ ↦ false, rfl, ?_, by simp [hfinished]⟩
          exact h.closed_refl (fun _ ↦ rfl) rfl rfl rfl rfl rfl rfl rfl
      | nil =>
          obtain ⟨m₁, hrun, hclosed⟩ := h.run round
          simp only [List.isEmpty_nil, if_true, hrun, Lib.except_ok_bind]
          rcases ih (h.closed hclosed) with ⟨m', q, hpoll, hclosed', hsome⟩ | ⟨hpoll, hnone, hopen⟩
          · exact Or.inl ⟨m', _, hpoll, hclosed.trans hclosed', hsome⟩
          · refine Or.inr ⟨hpoll, trivial, fun p hp ↦ ?_⟩
            -- No process has finished in this round, so `p` is still running.
            have hp₁ : p.close (fun fd ↦ round fd == some .eof) ∈ m₁.running := by
              refine hclosed.mem_running.mpr ⟨?_, p, hp, rfl⟩
              by_contra hdone
              obtain ⟨moved, hmoved, hperm⟩ := hclosed.finished
              have hmem := hperm.mem_iff.mpr (List.mem_filter.mpr
                ⟨List.mem_map_of_mem hp, Bool.not_eq_false _ ▸ hdone⟩)
              rw [hnone, hfinished, List.nil_append] at hmoved
              rw [← hmoved] at hmem
              cases hmem
            obtain ⟨isStdout, fd, hfd, hrounds⟩ := hopen _ hp₁
            obtain ⟨hfd, hround⟩ := PosixSubProcess.fdOf_close.mp hfd
            refine ⟨isStdout, fd, hfd, ?_⟩
            intro round' hround'
            rcases List.mem_cons.mp hround' with rfl | hround'
            · simpa using hround
            · exact hrounds round' hround'

/-- A finished process, which is not the one that is handed out, keeps its rule. -/
theorem Tidy.popped (h : m.Tidy) {proc : PosixSubProcess} {finished : List PosixSubProcess}
    (hfinished : m.finished = proc :: finished) :
    Tidy { m with
      finished := finished
      mapToRule := Function.update m.mapToRule proc.address none } := by
  have haddresses := h.addresses
  rw [hfinished] at haddresses
  have hsublist : (m.running ++ finished).Sublist (m.running ++ proc :: finished) :=
    (List.sublist_cons_self proc finished).append_left m.running
  have hother : ∀ p ∈ m.running ++ finished, p.address ≠ proc.address := by
    have hnodup := (List.perm_middle.map PosixSubProcess.address).nodup_iff.mp haddresses
    rw [List.map_cons, List.nodup_cons] at hnodup
    intro p hp heq
    exact hnodup.1 (heq ▸ List.mem_map_of_mem hp)
  refine ⟨(hsublist.map _).nodup haddresses, h.nodes, h.fresh, h.known, h.mapped, h.polled,
    h.running, ?_, ?_⟩
  · intro p hp
    exact h.finished p (by simp [hfinished, hp])
  · intro address
    simp only [Function.update_apply]
    by_cases heq : address = proc.address
    · simp only [heq, if_true, Option.isSome_none, Bool.false_eq_true, false_iff, not_exists,
        not_and]
      exact hother
    · rw [if_neg heq, h.rules, hfinished]
      constructor
      · rintro ⟨p, hp, rfl⟩
        rcases List.mem_cons.mp (List.perm_middle.mem_iff.mp hp) with rfl | hp
        · exact absurd rfl heq
        · exact ⟨p, hp, rfl⟩
      · rintro ⟨p, hp, rfl⟩
        exact ⟨p, hsublist.subset hp, rfl⟩

/-- `waitForNext` returns the first of the finished processes, with its rule. -/
theorem Tidy.waitForNext (h : m.Tidy) (hcall : 0 < m.nbRunning) (rounds : List Round)
    (status : SubProcessExitStatus) :
    (∃ m₁ q proc finished rule, Closed q m m₁ ∧ m₁.finished = proc :: finished ∧
      m₁.mapToRule proc.address = some rule ∧
      waitForNext rounds status m = .ok (proc, ⟨rule, status, proc.id⟩, { m₁ with
        finished := finished
        mapToRule := Function.update m₁.mapToRule proc.address none })) ∨
      waitForNext rounds status m = .error .outOfFuel ∧ m.finished = [] ∧
        ∀ p ∈ m.running, ∃ isStdout fd, p.fdOf isStdout = some fd ∧
          ∀ round ∈ rounds, round fd ≠ some .eof := by
  have hsome : (!m.finished.isEmpty || !m.running.isEmpty) = true := by
    rw [nbRunning] at hcall
    cases hfinished : m.finished with
    | cons p finished => rfl
    | nil =>
        cases hrunning : m.running with
        | cons p running => rfl
        | nil => simp [hfinished, hrunning] at hcall
  rw [PosixSubProcessManager.waitForNext, hsome]
  simp only [assert_true, Lib.except_ok_bind]
  rcases h.pollRounds rounds with ⟨m₁, q, hpoll, hclosed, hne⟩ | ⟨hpoll, hnone, hopen⟩
  · obtain ⟨proc, finished, hfinished⟩ := List.exists_cons_of_ne_nil hne
    obtain ⟨rule, hrule⟩ : ∃ rule, m₁.mapToRule proc.address = some rule := by
      rw [← Option.isSome_iff_exists, (h.closed hclosed).rules]
      exact ⟨proc, by simp [hfinished], rfl⟩
    refine Or.inl ⟨m₁, q, proc, finished, rule, hclosed, hfinished, hrule, ?_⟩
    simp only [hpoll, Lib.except_ok_bind, hfinished, hrule, Lib.except_pure]
  · refine Or.inr ⟨?_, hnone, hopen⟩
    rw [hpoll]
    rfl

/-! ## Accounts -/

/-- The processes of the manager: address, rule and id. -/
def entries (m : PosixSubProcessManager) : List (ℕ × Option RuleId × ℕ) :=
  (m.running ++ m.finished).map fun p ↦ (p.address, m.mapToRule p.address, p.id)

def addedEntries (trace : List Label) : List (ℕ × Option RuleId × ℕ) :=
  trace.filterMap fun
    | .added address rule id => some (address, some rule, id)
    | _ => none

def returnedEntries (trace : List Label) : List (ℕ × Option RuleId × ℕ) :=
  trace.filterMap fun
    | .returned address b => some (address, some b.rule, b.cmdId)
    | _ => none

theorem length_entries (m : PosixSubProcessManager) : m.entries.length = m.nbRunning := by
  simp [entries, nbRunning]

theorem entries_added {spawned : Spawned} (hfresh : m.Fresh spawned) (rule : RuleId) :
    (m.added rule spawned).entries = (spawned.address, some rule, m.id) :: m.entries := by
  rw [entries, entries, PosixSubProcessManager.added]
  simp only [List.cons_append, List.map_cons, Function.update_self]
  refine congrArg _ (List.map_congr_left fun p hp ↦ ?_)
  rw [Function.update_of_ne (hfresh.1 p hp)]

theorem Closed.entries (h : Closed q m m') : m'.entries.Perm m.entries := by
  have hperm := h.perm.map fun p : PosixSubProcess ↦ (p.address, m.mapToRule p.address, p.id)
  rw [PosixSubProcessManager.entries, PosixSubProcessManager.entries, h.mapToRule]
  simp only [List.map_append, List.map_map] at hperm ⊢
  exact hperm

theorem Tidy.entries_popped (h : m.Tidy) {proc : PosixSubProcess} {finished : List PosixSubProcess}
    {rule : RuleId} (hfinished : m.finished = proc :: finished)
    (hrule : m.mapToRule proc.address = some rule) :
    m.entries.Perm ((proc.address, some rule, proc.id) :: entries { m with
      finished := finished
      mapToRule := Function.update m.mapToRule proc.address none }) := by
  have haddresses := h.addresses
  rw [hfinished] at haddresses
  have hnodup := (List.perm_middle.map PosixSubProcess.address).nodup_iff.mp haddresses
  rw [List.map_cons, List.nodup_cons] at hnodup
  have hrest : entries { m with
      finished := finished
      mapToRule := Function.update m.mapToRule proc.address none } =
      (m.running ++ finished).map fun p ↦ (p.address, m.mapToRule p.address, p.id) := by
    refine List.map_congr_left fun p hp ↦ ?_
    have hne : p.address ≠ proc.address := fun heq ↦ hnodup.1 (heq ▸ List.mem_map_of_mem hp)
    simp only [Function.update_of_ne hne]
  rw [hrest, ← hrule, entries, hfinished]
  exact List.perm_middle.map fun p : PosixSubProcess ↦ (p.address, m.mapToRule p.address, p.id)

/-- What holds of the manager after the events in `trace`. -/
structure Accounted (trace : List Label) (m : PosixSubProcessManager) : Prop where
  tidy : m.Tidy
  entries : (addedEntries trace).Perm (returnedEntries trace ++ m.entries)

theorem tidy_create : create.Tidy where
  addresses := List.nodup_nil
  nodes := List.nodup_nil
  fresh := by simp [create]
  known := nofun
  mapped := by simp [create]
  polled := by simp [create]
  running := by simp [create]
  finished := by simp [create]
  rules address := by simp [create]

variable {command : RuleId → String} {trace : List Label} {l : Label}

theorem Accounted.step (h : Accounted trace m) (hstep : Step command m l m') :
    Accounted (trace ++ [l]) m' := by
  cases hstep with
  | @add _ rule spawned id hcommand hfresh hrun =>
      rw [h.tidy.addProcess hcommand hfresh] at hrun
      obtain ⟨rfl, rfl⟩ := Prod.mk.inj (Except.ok.inj hrun)
      refine ⟨h.tidy.added rule hfresh, ?_⟩
      have hadded : addedEntries (trace ++ [.added spawned.address rule m.id]) =
          addedEntries trace ++ [(spawned.address, some rule, m.id)] := by
        simp [addedEntries]
      have hreturned : returnedEntries (trace ++ [.added spawned.address rule m.id]) =
          returnedEntries trace := by
        simp [returnedEntries]
      rw [hadded, hreturned, entries_added hfresh]
      have hlast : (addedEntries trace ++ [(spawned.address, some rule, m.id)]).Perm
          ((spawned.address, some rule, m.id) :: addedEntries trace) :=
        List.perm_append_singleton _ _
      exact (hlast.trans (h.entries.cons _)).trans List.perm_middle.symm
  | @poll _ round hrun =>
      obtain ⟨m₁, hrun₁, hclosed⟩ := h.tidy.run round
      obtain rfl := Except.ok.inj (hrun₁.symm.trans hrun)
      refine ⟨h.tidy.closed hclosed, ?_⟩
      have hadded : addedEntries (trace ++ [.polled round]) = addedEntries trace := by
        simp [addedEntries]
      have hreturned : returnedEntries (trace ++ [.polled round]) = returnedEntries trace := by
        simp [returnedEntries]
      rw [hadded, hreturned]
      exact h.entries.trans (hclosed.entries.symm.append_left _)
  | @wait _ rounds status proc b hcall hrun =>
      rcases h.tidy.waitForNext hcall rounds status with
        ⟨m₁, q, proc₁, finished, rule, hclosed, hfinished, hrule, hreturns⟩ | ⟨hblocks, -⟩
      · obtain ⟨rfl, hb⟩ := Prod.mk.inj (Except.ok.inj (hreturns.symm.trans hrun))
        obtain ⟨rfl, rfl⟩ := Prod.mk.inj hb
        have htidy := h.tidy.closed hclosed
        refine ⟨htidy.popped hfinished, ?_⟩
        have hadded : addedEntries (trace ++ [.returned proc₁.address ⟨rule, status, proc₁.id⟩]) =
            addedEntries trace := by
          simp [addedEntries]
        have hreturned :
            returnedEntries (trace ++ [.returned proc₁.address ⟨rule, status, proc₁.id⟩]) =
              returnedEntries trace ++ [(proc₁.address, some rule, proc₁.id)] := by
          simp [returnedEntries]
        rw [hadded, hreturned, List.append_assoc, List.singleton_append]
        have hpopped := hclosed.entries.symm.trans (htidy.entries_popped hfinished hrule)
        exact h.entries.trans (hpopped.append_left _)
      · rw [hblocks] at hrun
        cases hrun

theorem accounted (hrun : Lib.Trace (Step command) create trace m) : Accounted trace m :=
  hrun.invariant Accounted ⟨tidy_create, List.Perm.refl _⟩ fun _ _ _ _ h hstep ↦ h.step hstep

/-- In every run `map_` and `pollfds_` hold the open descriptors of the running
processes; a process moves to `finished_` when both of its descriptors have
been read to the end, and not before; every process that was added is still
there or has been returned once, with its rule and its id; and no assertion
fails. -/
theorem nothing_lost (hrun : Lib.Trace (Step command) create trace m) :
    (∀ fd, (m.map fd).isSome = true ↔ ∃ p ∈ m.running, ∃ b, p.fdOf b = some fd) ∧
    ((m.pollfds.map PollFd.fd).Nodup ∧ ∀ fd, fd ∈ m.pollfds.map PollFd.fd ↔
      ∃ p ∈ m.running, ∃ b, p.fdOf b = some fd) ∧
    ((∀ p ∈ m.running, p.completed = false) ∧ ∀ p ∈ m.finished, p.completed = true) ∧
    (∀ round, ∃ m', PosixSubProcessManager.run round m = .ok m' ∧
      m'.running = (m.running.map (·.close fun fd ↦ round fd == some .eof)).filter
        (fun p ↦ !p.completed) ∧
      ∃ moved, m'.finished = m.finished ++ moved ∧
        moved.Perm ((m.running.map (·.close fun fd ↦ round fd == some .eof)).filter
          (·.completed))) ∧
    (addedEntries trace).Perm (returnedEntries trace ++ m.entries) ∧
    m.nbRunning + (returnedEntries trace).length = (addedEntries trace).length ∧
    (∀ rule spawned, command rule ≠ "" → m.Fresh spawned →
      ∃ m', PosixSubProcessManager.addProcess (command rule) rule spawned m = .ok (m.id, m')) ∧
    (0 < m.nbRunning → ∀ rounds status,
      (∃ proc b m', PosixSubProcessManager.waitForNext rounds status m = .ok (proc, b, m')) ∨
      PosixSubProcessManager.waitForNext rounds status m = .error .outOfFuel ∧ m.finished = [] ∧
        ∀ p ∈ m.running, ∃ b fd, p.fdOf b = some fd ∧ ∀ round ∈ rounds, round fd ≠ some .eof) := by
  obtain ⟨htidy, hentries⟩ := accounted hrun
  refine ⟨fun fd ↦ htidy.monitored_iff, ⟨htidy.nodup_fds, fun fd ↦ htidy.polled_iff⟩,
    ⟨htidy.running, htidy.finished⟩, ?_, hentries, ?_, ?_, ?_⟩
  · intro round
    obtain ⟨m', hround, hclosed⟩ := htidy.run round
    exact ⟨m', hround, hclosed.running, hclosed.finished⟩
  · have hlength := hentries.length_eq
    rw [List.length_append, length_entries] at hlength
    omega
  · exact fun rule spawned hcommand hfresh ↦ ⟨_, htidy.addProcess hcommand hfresh⟩
  · intro hcall rounds status
    rcases htidy.waitForNext hcall rounds status with
      ⟨m₁, q, proc, finished, rule, -, -, -, hreturns⟩ | hblocks
    · exact Or.inl ⟨_, _, _, hreturns⟩
    · exact Or.inr hblocks

/-! ## Two commands -/

def twoCommands : PosixSubProcessManager :=
  (create.added 7 ⟨100, 3, 4⟩).added 8 ⟨200, 5, 6⟩

theorem twoCommands_run : Lib.Trace (Step fun _ ↦ "true") create
    [.added 100 7 0, .added 200 8 1] twoCommands := by
  have hfirst : create.Fresh ⟨100, 3, 4⟩ := by decide
  have hsecond : (create.added 7 ⟨100, 3, 4⟩).Fresh ⟨200, 5, 6⟩ := by decide
  have hrun₁ : PosixSubProcessManager.addProcess "true" 7 ⟨100, 3, 4⟩ create = _ :=
    tidy_create.addProcess (by decide) hfirst
  have hrun₂ : PosixSubProcessManager.addProcess "true" 8 ⟨200, 5, 6⟩ (create.added 7 ⟨100, 3, 4⟩) =
      _ := (tidy_create.added 7 hfirst).addProcess (by decide) hsecond
  exact (Lib.Trace.nil.snoc (.add (by decide) hfirst hrun₁)).snoc (.add (by decide) hsecond hrun₂)

/-- The second command is finished first, its error before its output. -/
theorem nothing_lost_of_two : ∃ trace m, Lib.Trace (Step fun _ ↦ "true") create trace m ∧
    returnedEntries trace = [(200, some 8, 1)] ∧ m.nbRunning + 1 = 2 := by
  have hwait : waitForNext [fun fd ↦ if fd = 6 then some .eof else none,
      fun fd ↦ if fd = 5 then some .eof else none] .succeeded twoCommands = .ok _ := rfl
  have hrun := twoCommands_run.snoc (.wait (by decide) hwait)
  exact ⟨_, _, hrun, rfl, (nothing_lost hrun).2.2.2.2.2.1⟩

end PosixSubProcessManager

end Falcon
