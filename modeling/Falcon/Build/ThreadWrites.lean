import Falcon.Build.BuildThread
import Falcon.Build.Complete
import Falcon.Lib.Legal
import Falcon.Stream.Document

/-!
# What a build tells the stream server

The build thread announces a command when its process starts, passes on what the process
writes, and reports the end when it has reaped the process.  So it makes its calls in the
order that the stream server relies on, with one end for every command.
-/

namespace Falcon

open PosixSubProcessManager (BuiltRule Spawned Round addProcess)

open StreamServer (Write)

/-! ## What the processes say -/

namespace PosixSubProcessManager

/-- Only processes that run have told the consumer something. -/
structure Says (m m' : PosixSubProcessManager) : Prop where
  output : ∃ out, m'.output = m.output ++ out ∧ ∀ o ∈ out, ∃ p ∈ m.running, p.id = o.cmdId
  ids : ∀ p' ∈ m'.running, ∃ p ∈ m.running, p.id = p'.id

variable {m m' m'' : PosixSubProcessManager} {fd : ℕ}

theorem Says.refl (m : PosixSubProcessManager) : m.Says m :=
  ⟨⟨[], (List.append_nil _).symm, by simp⟩, fun p hp ↦ ⟨p, hp, rfl⟩⟩

theorem Says.trans (h : m.Says m') (h' : m'.Says m'') : m.Says m'' := by
  obtain ⟨out, hout, hids⟩ := h.output
  obtain ⟨out', hout', hids'⟩ := h'.output
  refine ⟨⟨out ++ out', by rw [hout', hout, List.append_assoc], ?_⟩, ?_⟩
  · intro o ho
    rcases List.mem_append.mp ho with ho | ho
    · exact hids o ho
    · obtain ⟨p', hp', heq⟩ := hids' o ho
      obtain ⟨p, hp, hid⟩ := h.ids p' hp'
      exact ⟨p, hp, hid.trans heq⟩
  · intro p'' hp''
    obtain ⟨p', hp', heq⟩ := h'.ids p'' hp''
    obtain ⟨p, hp, hid⟩ := h.ids p' hp'
    exact ⟨p, hp, hid.trans heq⟩

theorem onFdReady_said {p p' : PosixSubProcess} {isStdout done : Bool} {r : ReadResult}
    {out : List CommandOutput} (h : p.onFdReady isStdout r = .ok (done, p', out)) :
    p'.id = p.id ∧ ∀ o ∈ out, o.cmdId = p.id := by
  unfold PosixSubProcess.onFdReady at h
  obtain ⟨-, -, h⟩ := Lib.bind_eq_ok.mp h
  cases r with
  | data buf =>
      obtain ⟨-, rfl, rfl⟩ : false = done ∧ p = p' ∧ _ = out := by simpa using h
      exact ⟨rfl, by simp⟩
  | eof =>
      obtain ⟨-, rfl, rfl⟩ : true = done ∧ p.closeFd isStdout = p' ∧ [] = out := by simpa using h
      refine ⟨?_, by simp⟩
      cases isStdout <;> rfl

theorem readFd_said {r : ReadResult} (h : readFd fd r m = .ok m') : m.Says m' := by
  rw [readFd] at h
  cases hmap : m.map fd with
  | none =>
      rw [hmap] at h
      cases h
  | some info =>
      simp only [hmap] at h
      cases hfind : m.running.find? (·.address = info.itRunning) with
      | none =>
          rw [hfind] at h
          cases h
      | some proc =>
          simp only [hfind] at h
          obtain ⟨⟨done, proc', out⟩, hready, hrun⟩ := Lib.bind_eq_ok.mp h
          obtain ⟨hid, hout⟩ := onFdReady_said hready
          have hproc : proc ∈ m.running := List.mem_of_find?_eq_some hfind
          have hids : ∀ x ∈ m.running.map fun p ↦ if p.address = info.itRunning then proc' else p,
              ∃ p ∈ m.running, p.id = x.id := by
            intro x hx
            obtain ⟨p, hp, rfl⟩ := List.mem_map.mp hx
            split
            · exact ⟨proc, hproc, hid.symm⟩
            · exact ⟨p, hp, rfl⟩
          have hsaid : ∀ o ∈ out, ∃ p ∈ m.running, p.id = o.cmdId :=
            fun o ho ↦ ⟨proc, hproc, (hout o ho).symm⟩
          simp only at hrun
          split at hrun
          · split at hrun
            · obtain rfl := Except.ok.inj hrun
              exact ⟨⟨out, rfl, hsaid⟩, fun x hx ↦ hids x (List.mem_of_mem_filter hx)⟩
            · obtain rfl := Except.ok.inj hrun
              exact ⟨⟨out, rfl, hsaid⟩, hids⟩
          · obtain rfl := Except.ok.inj hrun
            exact ⟨⟨out, rfl, hsaid⟩, hids⟩

theorem run_said {round : Round} (h : PosixSubProcessManager.run round m = .ok m') : m.Says m' := by
  refine Lib.foldlM_preserves Says Says.refl (fun _ _ _ ↦ Says.trans) ?_ h
  intro fd _ m m' hread
  rw [readReady] at hread
  split at hread
  · obtain rfl := Except.ok.inj hread
    exact Says.refl m
  · exact readFd_said hread

theorem pollRounds_said {rounds : List Round} (h : pollRounds rounds m = .ok m') : m.Says m' := by
  induction rounds generalizing m with
  | nil =>
      rw [pollRounds] at h
      split at h
      · cases h
      · obtain rfl := Except.ok.inj h
        exact Says.refl m
  | cons round rounds ih =>
      rw [pollRounds] at h
      split at h
      · obtain ⟨m₁, hround, hrest⟩ := Lib.bind_eq_ok.mp h
        exact (run_said hround).trans (ih hrest)
      · obtain rfl := Except.ok.inj h
        exact Says.refl m

/-- What is said while the thread waits, by processes that were running. -/
theorem waitForNext_said {rounds : List Round} {status : SubProcessExitStatus}
    {proc : PosixSubProcess} {res : BuiltRule}
    (h : waitForNext rounds status m = .ok (proc, res, m')) :
    ∃ out, m'.output = m.output ++ out ∧ ∀ o ∈ out, ∃ p ∈ m.running, p.id = o.cmdId := by
  rw [waitForNext] at h
  obtain ⟨-, -, h⟩ := Lib.bind_eq_ok.mp h
  obtain ⟨m₁, hpoll, h⟩ := Lib.bind_eq_ok.mp h
  have houtput : m'.output = m₁.output := by
    split at h
    · cases h
    · split at h
      · cases h
      · obtain ⟨-, -, rfl⟩ := by simpa using h
        rfl
  rw [houtput]
  exact (pollRounds_said hpoll).output

end PosixSubProcessManager

/-! ## Announcements and ends -/

namespace StreamServer

def Write.announcedId : Write → Option ℕ
  | .newCommand cmdId _ => some cmdId
  | _ => none

def Write.endedId : Write → Option ℕ
  | .endCommand cmdId _ => some cmdId
  | _ => none

def announcements (ws : List Write) : List ℕ := ws.filterMap Write.announcedId

def ends (ws : List Write) : List ℕ := ws.filterMap Write.endedId

variable {ws ws' : List Write} {op : Write} {cmdId n : ℕ}

@[simp] theorem announcements_append (ws ws' : List Write) :
    announcements (ws ++ ws') = announcements ws ++ announcements ws' := List.filterMap_append ..

@[simp] theorem ends_append (ws ws' : List Write) :
    ends (ws ++ ws') = ends ws ++ ends ws' := List.filterMap_append ..

theorem mem_announcements : cmdId ∈ announcements ws ↔ ∃ cmd, Write.newCommand cmdId cmd ∈ ws := by
  rw [announcements, List.mem_filterMap]
  constructor
  · rintro ⟨op, hop, hid⟩
    cases op with
    | newCommand cmdId' cmd =>
        obtain rfl := Option.some.inj hid
        exact ⟨cmd, hop⟩
    | _ => cases hid
  · rintro ⟨cmd, hop⟩
    exact ⟨_, hop, rfl⟩

theorem mem_ends : cmdId ∈ ends ws ↔ ∃ status, Write.endCommand cmdId status ∈ ws := by
  rw [ends, List.mem_filterMap]
  constructor
  · rintro ⟨op, hop, hid⟩
    cases op with
    | endCommand cmdId' status =>
        obtain rfl := Option.some.inj hid
        exact ⟨status, hop⟩
    | _ => cases hid
  · rintro ⟨status, hop⟩
    exact ⟨_, hop, rfl⟩

theorem allowed_newCommand {cmd : String} :
    (Write.newCommand cmdId cmd).Allowed ws ↔ cmdId ∉ announcements ws := by
  rw [mem_announcements, not_exists]
  rfl

theorem allowed_endCommand {status : SubProcessExitStatus} :
    (Write.endCommand cmdId status).Allowed ws ↔ cmdId ∈ announcements ws ∧ cmdId ∉ ends ws := by
  rw [mem_announcements, mem_ends, not_exists]
  rfl

theorem allowed_output {o : CommandOutput} :
    o.write.Allowed ws ↔ o.cmdId ∈ announcements ws ∧ o.cmdId ∉ ends ws := by
  rw [mem_announcements, mem_ends, not_exists]
  obtain ⟨cmdId, isStdout, buf⟩ := o
  cases isStdout <;> rfl

/-- At any time at most `n` commands have been announced and have not ended. -/
def Slots (n : ℕ) (ws : List Write) : Prop :=
  ∀ pre, pre <+: ws → (announcements pre).length ≤ (ends pre).length + n

theorem Slots.snoc (h : Slots n ws)
    (hlast : (announcements (ws ++ [op])).length ≤ (ends (ws ++ [op])).length + n) :
    Slots n (ws ++ [op]) := by
  intro pre hpre
  rcases List.prefix_concat_iff.mp hpre with rfl | hpre
  · exact hlast
  · exact h pre hpre

/-- What is neither an announcement nor an end. -/
def Quiet (ws : List Write) : Prop := ∀ op ∈ ws, op.announcedId = none ∧ op.endedId = none

theorem Quiet.announcements (h : Quiet ws) : announcements ws = [] :=
  List.filterMap_eq_nil_iff.mpr fun op hop ↦ (h op hop).1

theorem Quiet.ends (h : Quiet ws) : ends ws = [] :=
  List.filterMap_eq_nil_iff.mpr fun op hop ↦ (h op hop).2

theorem Slots.append (h : Slots n ws) (hquiet : Quiet ws') : Slots n (ws ++ ws') := by
  induction ws' using List.reverseRecOn with
  | nil => rwa [List.append_nil]
  | append_singleton ws' op ih =>
      have hws' : Quiet ws' := fun x hx ↦ hquiet x (List.mem_append_left _ hx)
      rw [← List.append_assoc]
      refine (ih hws').snoc ?_
      rw [List.append_assoc, announcements_append, ends_append, hquiet.announcements, hquiet.ends,
        List.append_nil, List.append_nil]
      exact h ws List.prefix_rfl

end StreamServer

/-! ## The process manager and the calls -/

namespace PosixSubProcessManager

open StreamServer

def ids (m : PosixSubProcessManager) : List ℕ := (m.running ++ m.finished).map (·.id)

theorem length_ids (m : PosixSubProcessManager) : m.ids.length = m.nbRunning := by
  simp [ids, nbRunning]

/-- The calls `ws` account for the processes of the manager, of which there are at most
`n`: the ids count up from zero. -/
structure Told (n : ℕ) (m : PosixSubProcessManager) (ws : List Write) : Prop where
  tidy : m.Tidy
  follows : Lib.Follows (fun ops op ↦ op.Allowed ops) ws
  id : m.id = (announcements ws).length % 2 ^ 32
  range : announcements ws = List.range (announcements ws).length
  perm : (announcements ws).Perm (ends ws ++ m.ids)
  slots : Slots n ws

namespace Told

variable {n : ℕ} {m m' : PosixSubProcessManager} {ws ws' : List Write} {op : Write} {cmdId : ℕ}

/-- A process of the manager has been announced and has not ended. -/
theorem open_of_mem (h : m.Told n ws) (hid : cmdId ∈ m.ids) :
    cmdId ∈ announcements ws ∧ cmdId ∉ ends ws := by
  have hnodup : (ends ws ++ m.ids).Nodup :=
    h.perm.nodup_iff.mp (h.range ▸ List.nodup_range)
  exact ⟨h.perm.mem_iff.mpr (List.mem_append_right _ hid),
    fun hended ↦ (List.nodup_append.mp hnodup).2.2 _ hended _ hid rfl⟩

/-- Calls that neither announce nor end a command. -/
theorem quiet (h : m.Told n ws) (hquiet : Quiet ws')
    (hallowed : ∀ op ∈ ws', ∀ ops, announcements ops = announcements ws → ends ops = ends ws →
      op.Allowed ops) : m.Told n (ws ++ ws') := by
  have hannouncements : announcements (ws ++ ws') = announcements ws := by
    rw [announcements_append, hquiet.announcements, List.append_nil]
  have hends : ends (ws ++ ws') = ends ws := by
    rw [ends_append, hquiet.ends, List.append_nil]
  refine ⟨h.tidy, ?_, ?_, ?_, ?_, h.slots.append hquiet⟩
  · refine h.follows.append fun pre op post hsplit ↦ ?_
    have hpre : Quiet pre := fun x hx ↦ hquiet x (by simp [hsplit, hx])
    refine hallowed op (by simp [hsplit]) _ ?_ ?_
    · rw [announcements_append, hpre.announcements, List.append_nil]
    · rw [ends_append, hpre.ends, List.append_nil]
  · rw [hannouncements]
    exact h.id
  · rw [hannouncements]
    exact h.range
  · rw [hannouncements, hends]
    exact h.perm

/-- A new process. -/
theorem announce (h : m.Told n ws) (hslot : m.nbRunning < n) {spawned : Spawned}
    (hfresh : m.Fresh spawned) (hcount : (announcements ws).length < 2 ^ 32) (rule : RuleId)
    (cmd : String) : (m.added rule spawned).Told n (ws ++ [.newCommand m.id cmd]) := by
  have hid : m.id = (announcements ws).length := h.id.trans (Nat.mod_eq_of_lt hcount)
  have hannouncements : announcements (ws ++ [.newCommand m.id cmd]) =
      announcements ws ++ [m.id] := announcements_append ..
  have hends : ends (ws ++ [.newCommand m.id cmd]) = ends ws := by
    rw [ends_append]
    exact List.append_nil _
  have hlength := h.perm.length_eq
  rw [List.length_append, length_ids] at hlength
  refine ⟨h.tidy.added rule hfresh, ?_, ?_, ?_, ?_, ?_⟩
  · refine Lib.follows_snoc.mpr ⟨h.follows, allowed_newCommand.mpr ?_⟩
    rw [h.range, hid, List.mem_range]
    exact lt_irrefl _
  · rw [hannouncements, List.length_append, List.length_singleton, ← hid]
    rfl
  · rw [hannouncements, List.length_append, List.length_singleton, List.range_succ, ← h.range, hid]
  · rw [hannouncements, hends]
    exact (List.perm_append_singleton _ _).trans ((h.perm.cons _).trans List.perm_middle.symm)
  · refine h.slots.snoc ?_
    rw [hannouncements, hends, List.length_append, List.length_singleton]
    omega

theorem ids_closed {q : ℕ → Bool} (h : Closed q m m') : m'.ids.Perm m.ids := by
  have hperm := h.perm.map PosixSubProcess.id
  rw [ids, ids]
  simp only [List.map_append, List.map_map] at hperm ⊢
  exact hperm

/-- The end of a command, behind what the processes have said in the meantime. -/
theorem wait (h : m.Told n ws) (hcall : 0 < m.nbRunning) {rounds : List Round}
    {status : SubProcessExitStatus} {proc : PosixSubProcess} {res : BuiltRule}
    (hwait : waitForNext rounds status m = .ok (proc, res, m')) :
    m'.Told n (ws ++ (m'.output.drop m.output.length).map CommandOutput.write ++
      [.endCommand res.cmdId res.status]) := by
  obtain ⟨out, hout, hspoken⟩ := waitForNext_said hwait
  rw [hout, List.drop_left]
  have hquiet : Quiet (out.map CommandOutput.write) := by
    intro op hop
    obtain ⟨⟨cmdId, isStdout, buf⟩, -, rfl⟩ := List.mem_map.mp hop
    cases isStdout <;> exact ⟨rfl, rfl⟩
  have hsaid : m.Told n (ws ++ out.map CommandOutput.write) := by
    refine h.quiet hquiet fun op hop ops hannouncements hends ↦ ?_
    obtain ⟨o, ho, rfl⟩ := List.mem_map.mp hop
    obtain ⟨p, hp, hid⟩ := hspoken o ho
    rw [allowed_output, hannouncements, hends]
    exact h.open_of_mem (List.mem_map.mpr ⟨p, List.mem_append_left _ hp, hid⟩)
  generalize ws ++ out.map CommandOutput.write = ws at hsaid ⊢
  rcases h.tidy.waitForNext hcall rounds status with
    ⟨m₁, q, proc₁, finished, rule, hclosed, hfinished, -, hreturns⟩ | ⟨hblocks, -⟩
  · obtain ⟨-, hrest⟩ := Prod.mk.inj (Except.ok.inj (hreturns.symm.trans hwait))
    obtain ⟨rfl, rfl⟩ := Prod.mk.inj hrest
    have hpopped : m.ids.Perm (proc₁.id :: (m₁.running ++ finished).map (·.id)) := by
      refine (ids_closed hclosed).symm.trans ?_
      rw [ids, hfinished]
      exact List.perm_middle.map _
    have hannouncements : announcements (ws ++ [.endCommand proc₁.id status]) =
        announcements ws := by
      rw [announcements_append]
      exact List.append_nil _
    have hends : ends (ws ++ [.endCommand proc₁.id status]) = ends ws ++ [proc₁.id] :=
      ends_append ..
    refine ⟨(h.tidy.closed hclosed).popped hfinished, ?_, ?_, ?_, ?_, ?_⟩
    · refine Lib.follows_snoc.mpr ⟨hsaid.follows, allowed_endCommand.mpr (hsaid.open_of_mem ?_)⟩
      exact hpopped.mem_iff.mpr List.mem_cons_self
    · rw [hannouncements]
      exact hclosed.id.trans hsaid.id
    · rw [hannouncements]
      exact hsaid.range
    · rw [hannouncements, hends, List.append_assoc]
      exact hsaid.perm.trans (hpopped.append_left _)
    · refine hsaid.slots.snoc ?_
      rw [hannouncements, hends, List.length_append]
      exact (hsaid.slots ws List.prefix_rfl).trans (by omega)
  · rw [hblocks] at hwait
    cases hwait

end Told

end PosixSubProcessManager

/-! ## A step of the thread -/

/-- The control state of the builder stays as it is while a command is reaped. -/
theorem Builder.reap_keeps {ω : Type} {P : Platform ω} {b b' : Builder ω} {rule : RuleId}
    {status : SubProcessExitStatus} {res : BuildResult} {evs : List BuildEvent}
    (h : Builder.reap P b rule status = .ok (res, evs, b')) :
    b'.phase = b.phase ∧ b'.numThreads = b.numThreads := by
  rw [Builder.reap] at h
  split at h
  · obtain ⟨-, -, rfl⟩ : _ ∧ _ ∧ _ = b' := by simpa using h
    exact ⟨rfl, rfl⟩
  · obtain ⟨⟨loaded, g, w⟩, -, h⟩ := Lib.bind_eq_ok.mp h
    cases loaded with
    | false =>
        obtain ⟨-, -, rfl⟩ : _ ∧ _ ∧ _ = b' := by simpa using h
        exact ⟨rfl, rfl⟩
    | true =>
        obtain ⟨w', -, h⟩ := Lib.bind_eq_ok.mp h
        obtain ⟨b₁, hfinish, h⟩ := Lib.bind_eq_ok.mp h
        obtain ⟨g', p', rfl, -⟩ := Builder.onRuleFinished_keeps hfinish
        obtain ⟨-, -, rfl⟩ : _ ∧ _ ∧ _ = b' := by simpa using h
        exact ⟨rfl, rfl⟩

namespace BuildThread

open PosixSubProcessManager StreamServer

variable {ω : Type} {P : Platform ω} {t t' : BuildThread ω} {c : ThreadChoice ω}
  {evs : List BuildEvent} {n : ℕ}

/-- What a step does to the process manager and to the calls. -/
inductive Moves (t : BuildThread ω) (c : ThreadChoice ω) (t' : BuildThread ω) : Prop
  | quiet {ws} (hmanager : t'.manager = t.manager) (hwrites : t'.writes = t.writes ++ ws)
      (hws : ∀ op ∈ ws, ∃ path, op = .cacheRetrieveAction path)
      (hphase : t'.builder.phase = .finished →
        t.builder.phase = .finished ∨ t.manager.nbRunning = 0)
  | spawned {rule cmd id} (hslot : t.manager.nbRunning < t.builder.numThreads)
      (hrun : addProcess cmd rule c.spawned t.manager = .ok (id, t'.manager))
      (hwrites : t'.writes = t.writes ++ [.newCommand id cmd])
      (hphase : t'.builder.phase ≠ .finished)
  | ended {proc res} (hcall : 0 < t.manager.nbRunning)
      (hwait : PosixSubProcessManager.waitForNext c.rounds c.status t.manager =
        .ok (proc, res, t'.manager))
      (hwrites : t'.writes = t.ended t'.manager res) (hphase : t'.builder.phase ≠ .finished)

theorem moves_buildRule {rule : RuleId} (hphase : t.builder.phase = .spawn)
    (hslot : t.manager.nbRunning < t.builder.numThreads)
    (h : t.buildRule P c.spawned rule = .ok (evs, t')) :
    t'.builder.numThreads = t.builder.numThreads ∧ Moves t c t' := by
  have hspawn : t.builder.phase ≠ .finished := by simp [hphase]
  rw [buildRule] at h
  split at h
  · obtain ⟨b, hfinish, h⟩ := Lib.bind_eq_ok.mp h
    obtain ⟨-, rfl⟩ := Prod.mk.inj (Except.ok.inj h)
    obtain ⟨g, p, rfl, -⟩ := Builder.onRuleFinished_keeps hfinish
    exact ⟨rfl, .quiet rfl (List.append_nil _).symm (by simp) fun hend ↦ absurd hend hspawn⟩
  · obtain ⟨⟨hit, w⟩, -, h⟩ := Lib.bind_eq_ok.mp h
    cases hit with
    | true =>
        obtain ⟨b, hfinish, h⟩ := Lib.bind_eq_ok.mp h
        obtain ⟨-, rfl⟩ := Prod.mk.inj (Except.ok.inj h)
        obtain ⟨g, p, rfl, -⟩ := Builder.onRuleFinished_keeps hfinish
        refine ⟨rfl, .quiet rfl rfl ?_ fun hend ↦ absurd hend hspawn⟩
        intro op hop
        obtain ⟨output, -, rfl⟩ := List.mem_map.mp hop
        exact ⟨_, rfl⟩
    | false =>
        obtain ⟨⟨id, m⟩, hadd, h⟩ := Lib.bind_eq_ok.mp h
        obtain ⟨-, rfl⟩ := Prod.mk.inj (Except.ok.inj h)
        exact ⟨rfl, .spawned hslot hadd rfl hspawn⟩

theorem moves_waitForNext {res : BuildResult}
    (h : t.waitForNext P c = .ok (res, evs, t')) :
    t'.builder.numThreads = t.builder.numThreads ∧ t'.builder.phase = t.builder.phase ∧
      ∃ proc built, PosixSubProcessManager.waitForNext c.rounds c.status t.manager =
        .ok (proc, built, t'.manager) ∧ t'.writes = t.ended t'.manager built := by
  obtain ⟨⟨proc, built, m⟩, hwait, h⟩ := Lib.bind_eq_ok.mp h
  obtain ⟨⟨res', evs', b⟩, hreap, h⟩ := Lib.bind_eq_ok.mp h
  obtain ⟨-, -, rfl⟩ : _ ∧ _ ∧ _ = t' := by simpa using h
  obtain ⟨hphase, hthreads⟩ := Builder.reap_keeps hreap
  exact ⟨hthreads, hphase, proc, built, hwait, rfl⟩

/-- The plan and the outside world do not matter. -/
theorem Moves.of_builder {b : Builder ω} (h : Moves { t with builder := b } c t')
    (hthreads : b.numThreads = t.builder.numThreads) (hphase : b.phase = t.builder.phase) :
    Moves t c t' := by
  cases h with
  | quiet hmanager hwrites hws hend => exact .quiet hmanager hwrites hws (hphase ▸ hend)
  | spawned hslot hrun hwrites hend => exact .spawned (hthreads ▸ hslot) hrun hwrites hend
  | ended hcall hwait hwrites hend => exact .ended hcall hwait hwrites hend

theorem moves_setPhase {phase : Phase}
    (hphase : phase = .finished → t.manager.nbRunning = 0) : Moves t c (t.setPhase phase) :=
  .quiet rfl (List.append_nil _).symm (by simp) fun hend ↦ Or.inr (hphase hend)

theorem moves_step (h : t.step P c = .ok (evs, t')) :
    t'.builder.numThreads = t.builder.numThreads ∧ Moves t c t' := by
  suffices hmoves : t'.builder.numThreads = (t.perturb c).builder.numThreads ∧
      Moves (t.perturb c) c t' from ⟨hmoves.1, hmoves.2.of_builder rfl rfl⟩
  rw [step] at h
  simp only at h
  generalize t.perturb c = t at h ⊢
  cases hphase : t.builder.phase with
  | main =>
      simp only [hphase] at h
      split at h
      · obtain ⟨-, rfl⟩ := Prod.mk.inj (Except.ok.inj h)
        exact ⟨rfl, moves_setPhase fun h ↦ by cases h⟩
      · obtain ⟨-, rfl⟩ := Prod.mk.inj (Except.ok.inj h)
        exact ⟨rfl, moves_setPhase fun h ↦ by cases h⟩
  | spawn =>
      simp only [hphase] at h
      split at h
      · rename_i hwork
        obtain ⟨-, hslot⟩ := Bool.and_eq_true_iff.mp hwork
        split at h
        · cases h
        · rename_i rule p _
          have hrun := moves_buildRule (t := { t with builder := { t.builder with plan := p } })
            hphase (of_decide_eq_true hslot) (by simpa only [hphase] using h)
          exact ⟨hrun.1, hrun.2.of_builder rfl rfl⟩
      · split at h
        · rename_i hcall
          obtain ⟨⟨res, evs', t₁⟩, hwait, h⟩ := Lib.bind_eq_ok.mp h
          obtain ⟨-, rfl⟩ := Prod.mk.inj (Except.ok.inj h)
          obtain ⟨hthreads, -, proc, built, hbuilt, hwrites⟩ := moves_waitForNext hwait
          exact ⟨hthreads, .ended hcall hbuilt hwrites fun h ↦ by cases h⟩
        · obtain ⟨-, rfl⟩ := Prod.mk.inj (Except.ok.inj h)
          exact ⟨rfl, moves_setPhase fun h ↦ by cases h⟩
  | flush =>
      simp only [hphase] at h
      split at h
      · rename_i hcall
        obtain ⟨⟨res, evs', t₁⟩, hwait, h⟩ := Lib.bind_eq_ok.mp h
        obtain ⟨-, rfl⟩ := Prod.mk.inj (Except.ok.inj h)
        obtain ⟨hthreads, hkept, proc, built, hbuilt, hwrites⟩ := moves_waitForNext hwait
        refine ⟨hthreads, .ended hcall hbuilt hwrites ?_⟩
        intro hend
        cases (hkept.trans hphase).symm.trans hend
      · rename_i hcall
        obtain ⟨-, rfl⟩ := Prod.mk.inj (Except.ok.inj h)
        exact ⟨rfl, moves_setPhase fun _ ↦ Nat.eq_zero_of_not_pos hcall⟩
  | finished =>
      simp only [hphase] at h
      obtain ⟨-, rfl⟩ := Prod.mk.inj (Except.ok.inj h)
      exact ⟨rfl, .quiet rfl (List.append_nil _).symm (by simp) Or.inl⟩

/-- The invariant of the thread. -/
structure Telling (n : ℕ) (t : BuildThread ω) : Prop where
  numThreads : t.builder.numThreads = n
  told : t.manager.Told n t.writes
  finished : t.builder.phase = .finished → t.manager.nbRunning = 0

theorem quiet_of_retrieved {ws : List Write}
    (hws : ∀ op ∈ ws, ∃ path, op = .cacheRetrieveAction path) :
    Quiet ws ∧ ∀ op ∈ ws, ∀ ops, op.Allowed ops := by
  refine ⟨fun op hop ↦ ?_, fun op hop ops ↦ ?_⟩
  · obtain ⟨path, rfl⟩ := hws op hop
    exact ⟨rfl, rfl⟩
  · obtain ⟨path, rfl⟩ := hws op hop
    trivial

theorem telling_create (g : Graph) (p : BuildPlan) (w : ω) (n : ℕ) {ws : List Write}
    (hws : ∀ op ∈ ws, ∃ path, op = .cacheRetrieveAction path) :
    (create g p w n ws).Telling n := by
  have hempty : PosixSubProcessManager.create.Told n [] :=
    ⟨tidy_create, Lib.follows_nil, rfl, rfl, List.Perm.refl _, fun pre hpre ↦ by
      rw [List.prefix_nil.mp hpre]
      exact Nat.zero_le _⟩
  obtain ⟨hquiet, hallowed⟩ := quiet_of_retrieved hws
  exact ⟨rfl, hempty.quiet hquiet fun op hop ops _ _ ↦ hallowed op hop ops,
    fun h ↦ by cases h⟩

theorem Moves.prefix_writes (h : Moves t c t') : t.writes <+: t'.writes := by
  cases h with
  | quiet _ hwrites _ _ => exact ⟨_, hwrites.symm⟩
  | spawned _ _ hwrites _ => exact ⟨_, hwrites.symm⟩
  | ended _ _ hwrites _ =>
      rw [hwrites, BuildThread.ended, List.append_assoc]
      exact List.prefix_append _ _

theorem Telling.step (h : t.Telling n) (hfresh : t.Fresh c)
    (hcount : (announcements t'.writes).length ≤ 2 ^ 32) (hrun : t.step P c = .ok (evs, t')) :
    t'.Telling n := by
  obtain ⟨hthreads, hmoves⟩ := moves_step hrun
  refine ⟨hthreads.trans h.numThreads, ?_, ?_⟩
  · cases hmoves with
    | quiet hmanager hwrites hws hphase =>
        obtain ⟨hquiet, hallowed⟩ := quiet_of_retrieved hws
        rw [hmanager, hwrites]
        exact h.told.quiet hquiet fun op hop ops _ _ ↦ hallowed op hop ops
    | @spawned rule cmd id hslot hadd hwrites hphase =>
        obtain ⟨u, hcommand, -⟩ := Lib.bind_eq_ok.mp hadd
        rw [h.told.tidy.addProcess (of_decide_eq_true (assert_eq_ok.mp hcommand)) hfresh] at hadd
        obtain ⟨rfl, hmanager⟩ := Prod.mk.inj (Except.ok.inj hadd)
        rw [hwrites, announcements_append, List.length_append] at hcount
        rw [← hmanager, hwrites]
        exact h.told.announce (h.numThreads ▸ hslot) hfresh hcount rule cmd
    | ended hcall hwait hwrites hphase =>
        rw [hwrites]
        exact h.told.wait hcall hwait
  · intro hend
    cases hmoves with
    | quiet hmanager hwrites hws hphase =>
        rw [hmanager]
        exact (hphase hend).elim h.finished id
    | spawned hslot hadd hwrites hphase => exact absurd hend hphase
    | ended hcall hwait hwrites hphase => exact absurd hend hphase

theorem telling_of_run {g : Graph} {p : BuildPlan} {w : ω} {ws : List Write}
    {cs : List (ThreadChoice ω)} (hws : ∀ op ∈ ws, ∃ path, op = .cacheRetrieveAction path)
    (hfresh : Lib.Guarded Fresh (BuildThread.step P) cs (create g p w n ws))
    (hrun : Lib.runs (BuildThread.step P) cs (create g p w n ws) = .ok (evs, t))
    (hcount : (announcements t.writes).length ≤ 2 ^ 32) : t.Telling n := by
  refine Lib.runs_invariant
    (fun _ t ↦ (announcements t.writes).length ≤ 2 ^ 32 → t.Telling n) ?_ hfresh hrun []
    (fun _ ↦ telling_create g p w n hws) hcount
  intro _ _ t t' c h hguard hstep hlast
  obtain ⟨-, hmoves⟩ := moves_step hstep
  obtain ⟨rest, hrest⟩ := hmoves.prefix_writes
  refine (h ?_).step hguard hlast hstep
  rw [← hrest, announcements_append, List.length_append] at hlast
  omega

end BuildThread

namespace StreamServer

variable {buildId : ℕ} {ops ws : List Write} {s : StreamServer}

/-- The stream server deals with all calls that come in their order. -/
theorem During.writes (h : During buildId ops s)
    (hws : Lib.Follows (fun pre op ↦ op.Allowed (ops ++ pre)) ws) :
    ∃ s', ws.foldlM (fun s op ↦ StreamServer.write op s) s = .ok s' ∧
      During buildId (ops ++ ws) s' := by
  induction ws using List.reverseRecOn with
  | nil => exact ⟨s, rfl, by rwa [List.append_nil]⟩
  | append_singleton ws op ih =>
      obtain ⟨hws, hop⟩ := Lib.follows_snoc.mp hws
      obtain ⟨s₁, hrun, hduring⟩ := ih hws
      obtain ⟨hkept, hfits⟩ := hduring.written.reachable.kept
      obtain ⟨s₂, hwrite, -⟩ := hkept.write hfits hop.next
      refine ⟨s₂, ?_, ?_⟩
      · rw [List.foldlM_append, hrun, Lib.except_ok_bind, List.foldlM_cons, hwrite]
        rfl
      · rw [← List.append_assoc]
        exact hduring.write hop hwrite

end StreamServer

namespace BuildThread

open StreamServer

variable {ω : Type} {P : Platform ω}

/-- The calls of a build come in the order that the stream server relies on, whatever the
processes do: the ids count up from zero, no more than `numThreads` commands are open at a
time, and when the thread is at its end, each has ended once. -/
theorem run_stream (g : Graph) (p : BuildPlan) (w : ω) (numThreads : ℕ) {writes : List Write}
    {cs : List (ThreadChoice ω)} {evs : List BuildEvent} {t : BuildThread ω}
    (hlazy : ∀ op ∈ writes, ∃ path, op = .cacheRetrieveAction path)
    (hfresh : Lib.Guarded Fresh (step P) cs (create g p w numThreads writes))
    (hrun : Lib.runs (step P) cs (create g p w numThreads writes) = .ok (evs, t))
    (hcount : (announcements t.writes).length ≤ 2 ^ 32) :
    announcements t.writes = List.range (announcements t.writes).length ∧
    (∀ pre op post, t.writes = pre ++ op :: post → op.Allowed pre) ∧
    (∀ pre, pre <+: t.writes →
      (announcements pre).length ≤ (ends pre).length + numThreads) ∧
    (t.builder.phase = .finished →
      t.manager.nbRunning = 0 ∧ (announcements t.writes).Perm (ends t.writes)) ∧
    ∀ buildId s s', Reachable s .idle → newBuild buildId s = .ok s' →
      ∃ s'', t.writes.foldlM (fun s op ↦ StreamServer.write op s) s' = .ok s'' ∧
        During buildId t.writes s'' := by
  obtain ⟨-, htold, hfinished⟩ := telling_of_run hlazy hfresh hrun hcount
  refine ⟨htold.range, htold.follows, htold.slots, fun hphase ↦ ?_, ?_⟩
  · have hnone := hfinished hphase
    have hperm := htold.perm
    rw [← PosixSubProcessManager.length_ids] at hnone
    rw [List.eq_nil_of_length_eq_zero hnone, List.append_nil] at hperm
    exact ⟨hfinished hphase, hperm⟩
  · intro buildId s s' hreachable hnew
    have hstart : During buildId [] s' := .start hreachable hnew
    exact hstart.writes htold.follows

/-! ## One command -/

/-- The command writes two bytes, then both of its descriptors are closed. -/
def compileChoice (spawned : PosixSubProcessManager.Spawned) : ThreadChoice Unit where
  environment := id
  interrupt := false
  spawned := spawned
  rounds := [fun fd ↦ if fd = 3 then some (.data [104, 105]) else none, fun _ ↦ some .eof]
  status := .succeeded

def compileChoices : List (ThreadChoice Unit) :=
  [⟨100, 3, 4⟩, ⟨100, 3, 4⟩, ⟨200, 5, 6⟩, ⟨200, 5, 6⟩, ⟨200, 5, 6⟩].map compileChoice

/-- The thread once the command has been started. -/
def compileStarted : BuildThread Unit where
  builder := ⟨compileGraph, ⟨{0}, ∅, 1⟩, (), [], 1, .succeeded, false, .spawn⟩
  manager := PosixSubProcessManager.create.added 0 ⟨100, 3, 4⟩
  writes := [.newCommand 0 "cc -c main.c"]

theorem step_compileStarted :
    step emptyPlatform ((create compileGraph ⟨{0}, {0}, 0⟩ () 1 []).setPhase .spawn)
      (compileChoice ⟨100, 3, 4⟩) = .ok ([.found 0], compileStarted) := by
  have hwork : (⟨{0}, {0}, 0⟩ : BuildPlan).findWork = (some 0, ⟨{0}, ∅, 1⟩) := by
    simp [BuildPlan.findWork]
  rw [step]
  simp only [setPhase, perturb, Builder.perturb, create, Builder.create, hwork]
  rfl

theorem compile_run : ∃ evs t, Lib.runs (step emptyPlatform) compileChoices
      (create compileGraph ⟨{0}, {0}, 0⟩ () 1 []) = .ok (evs, t) ∧
    Lib.Guarded Fresh (step emptyPlatform) compileChoices
      (create compileGraph ⟨{0}, {0}, 0⟩ () 1 []) ∧
    t.writes = [.newCommand 0 "cc -c main.c", .writeStdout 0 [104, 105], .endCommand 0 .succeeded] ∧
    t.builder.phase = .finished ∧ t.builder.result = .succeeded := by
  have hfirst : step emptyPlatform (create compileGraph ⟨{0}, {0}, 0⟩ () 1 [])
      (compileChoice ⟨100, 3, 4⟩) =
      .ok ([], (create compileGraph ⟨{0}, {0}, 0⟩ () 1 []).setPhase .spawn) := rfl
  have hrest : Lib.runs (step emptyPlatform)
      ([⟨200, 5, 6⟩, ⟨200, 5, 6⟩, ⟨200, 5, 6⟩].map compileChoice) compileStarted = .ok _ := rfl
  have hstarted : Lib.runs (step emptyPlatform) (compileChoices.drop 1)
      ((create compileGraph ⟨{0}, {0}, 0⟩ () 1 []).setPhase .spawn) = .ok _ :=
    (Lib.runs_cons_of_ok step_compileStarted).trans (congrArg (· >>= _) hrest)
  refine ⟨_, _, (Lib.runs_cons_of_ok hfirst).trans (congrArg (· >>= _) hstarted), ?_, rfl, rfl, rfl⟩
  refine Lib.guarded_cons_of_ok ?_ hfirst (Lib.guarded_cons_of_ok ?_ step_compileStarted ?_)
  · change PosixSubProcessManager.create.Fresh ⟨100, 3, 4⟩
    decide
  · change PosixSubProcessManager.create.Fresh ⟨100, 3, 4⟩
    decide
  · refine Lib.guarded_cons_of_ok ?_ rfl (Lib.guarded_cons_of_ok ?_ rfl
      (Lib.guarded_cons_of_ok ?_ rfl trivial))
    · change (PosixSubProcessManager.create.added 0 ⟨100, 3, 4⟩).Fresh ⟨200, 5, 6⟩
      decide
    · change PosixSubProcessManager.Fresh _ ⟨200, 5, 6⟩
      decide
    · change PosixSubProcessManager.Fresh _ ⟨200, 5, 6⟩
      decide

theorem run_refines_compile : ∃ evs t ds s,
    Lib.runs (step emptyPlatform) compileChoices
      (create compileGraph ⟨{0}, {0}, 0⟩ () 1 []) = .ok (evs, t) ∧
    Builder.run emptyPlatform ds (.create compileGraph ⟨{0}, {0}, 0⟩ () 1) = .ok (evs, s) ∧
    t.Refines s ∧ t.builder.phase = .finished := by
  obtain ⟨evs, t, hrun, hguarded, -, hphase, -⟩ := compile_run
  obtain ⟨ds, s, hs, hrefines⟩ :=
    (run_refines compileGraph ⟨{0}, {0}, 0⟩ () 1 [] hguarded).1 evs t hrun
  exact ⟨evs, t, ds, s, hrun, hs, hrefines, hphase⟩

theorem run_stream_compile : ∃ t : BuildThread Unit,
    announcements t.writes = [0] ∧ ends t.writes = [0] ∧ t.manager.nbRunning = 0 ∧
    ∃ s', newBuild 7 StreamServer.create = .ok s' ∧
      ∃ s'', t.writes.foldlM (fun s op ↦ StreamServer.write op s) s' = .ok s'' ∧
        During 7 t.writes s'' := by
  obtain ⟨evs, t, hrun, hguarded, hwrites, hphase, -⟩ := compile_run
  have hone : announcements t.writes = [0] := by
    rw [hwrites]
    rfl
  have hlazy : ∀ op ∈ ([] : List Write), ∃ path, op = .cacheRetrieveAction path := by simp
  obtain ⟨-, -, -, hend, hstream⟩ := run_stream compileGraph ⟨{0}, {0}, 0⟩ () 1 hlazy hguarded hrun
    (by rw [hone]; decide)
  obtain ⟨hnone, hperm⟩ := hend hphase
  rw [hone] at hperm
  exact ⟨t, hone, List.perm_singleton.mp hperm.symm, hnone, _, rfl,
    hstream 7 StreamServer.create _ .create rfl⟩

end BuildThread

end Falcon
