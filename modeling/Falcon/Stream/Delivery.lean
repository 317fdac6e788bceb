import Mathlib.Logic.Relation
import Falcon.Lib.Count
import Falcon.Lib.Lists
import Falcon.Stream.Server

/-!
# Exact delivery

The bytes handed to the socket of a client are a first part of the buffer of
its build, and `bufPtr` is their number, as long as no call of `processClient`
transfers anything after a short `send`: the pointer that `send` is given does
not move with `bufPtr`.
-/

namespace Falcon

namespace StreamServer

/-- `sent fd` has been handed to the socket of client `fd`.  A build counts its
readers, so that it stays while a client reads it. -/
structure Tracks (sent : ℕ → List UInt8) (s : StreamServer) : Prop where
  map_nodup : (s.map.map Prod.fst).Nodup
  builds_nodup : (s.builds.map BuildInfo.address).Nodup
  fresh : ∀ b ∈ s.builds, b.address < s.nextAddress
  refcount : ∀ b ∈ s.builds, b.refcount = s.map.countP fun c ↦ c.2.itBuild = some b.address
  assigned : ∀ c ∈ s.map, ∀ a, c.2.itBuild = some a → ∃ b ∈ s.builds, b.address = a ∧
    c.2.bufPtr ≤ b.buf.length ∧ sent c.1 = b.buf.take c.2.bufPtr
  unassigned : ∀ c ∈ s.map, c.2.itBuild = none → c.2.bufPtr = 0 ∧ sent c.1 = []

variable {sent : ℕ → List UInt8} {s s' : StreamServer}

theorem tracks_create : Tracks sent create := by
  constructor <;> simp [create]

@[simp] theorem keys_updateClient (s : StreamServer) (fd : ℕ) (f : ClientInfo → ClientInfo) :
    (s.updateClient fd f).map.map Prod.fst = s.map.map Prod.fst := by
  rw [updateClient, List.map_map]
  refine List.map_congr_left fun c _ ↦ ?_
  simp only [Function.comp_apply]
  split <;> rfl

namespace Tracks

theorem client_eq (h : Tracks sent s) {c c' : ℕ × ClientInfo} (hc : c ∈ s.map) (hc' : c' ∈ s.map)
    (heq : c.1 = c'.1) : c = c' :=
  List.inj_on_of_nodup_map h.map_nodup hc hc' heq

theorem build_eq (h : Tracks sent s) {b b' : BuildInfo} (hb : b ∈ s.builds) (hb' : b' ∈ s.builds)
    (heq : b.address = b'.address) : b = b' :=
  List.inj_on_of_nodup_map h.builds_nodup hb hb' heq

/-- The lists of file descriptors play no part. -/
theorem setLists (h : Tracks sent s) (fds waiting : List ℕ) :
    Tracks sent { s with fds := fds, waiting := waiting } :=
  ⟨h.map_nodup, h.builds_nodup, h.fresh, h.refcount, h.assigned, h.unassigned⟩

/-- A build may change in all but its address and reference count as long as
its buffer only grows. -/
theorem mapBuilds (h : Tracks sent s) (f : BuildInfo → BuildInfo)
    (haddress : ∀ b, (f b).address = b.address) (hcount : ∀ b, (f b).refcount = b.refcount)
    (hbuf : ∀ b, b.buf <+: (f b).buf) : Tracks sent { s with builds := s.builds.map f } where
  map_nodup := h.map_nodup
  builds_nodup := by
    have heq : (s.builds.map f).map BuildInfo.address = s.builds.map BuildInfo.address := by
      rw [List.map_map]
      exact List.map_congr_left fun b _ ↦ haddress b
    rw [heq]
    exact h.builds_nodup
  fresh b hb := by
    obtain ⟨x, hx, rfl⟩ := List.mem_map.mp hb
    rw [haddress]
    exact h.fresh x hx
  refcount b hb := by
    obtain ⟨x, hx, rfl⟩ := List.mem_map.mp hb
    rw [haddress, hcount]
    exact h.refcount x hx
  assigned c hc a ha := by
    obtain ⟨b, hb, hba, hle, hsent⟩ := h.assigned c hc a ha
    obtain ⟨rest, hrest⟩ := hbuf b
    refine ⟨f b, List.mem_map_of_mem hb, (haddress b).trans hba, ?_, ?_⟩
    · rw [← hrest, List.length_append]
      omega
    · rw [← hrest, List.take_append_of_le_length hle]
      exact hsent
  unassigned := h.unassigned

theorem updateFront (h : Tracks sent s) {f : BuildInfo → BuildInfo}
    (haddress : ∀ b, (f b).address = b.address) (hcount : ∀ b, (f b).refcount = b.refcount)
    (hbuf : ∀ b, b.buf <+: (f b).buf) (hrun : s.updateFront f = .ok s') : Tracks sent s' := by
  rw [StreamServer.updateFront] at hrun
  cases hb : s.builds with
  | nil =>
      rw [hb] at hrun
      cases hrun
  | cons front bs =>
      simp only [hb, Lib.except_pure, Except.ok.injEq] at hrun
      subst hrun
      have hne : ∀ b ∈ bs, b.address ≠ front.address := by
        have hnd := h.builds_nodup
        rw [hb, List.map_cons, List.nodup_cons] at hnd
        exact fun b hmem heq ↦ hnd.1 (heq ▸ List.mem_map_of_mem hmem)
      -- Only the front has its address, so changing it is changing all that have it.
      have hmap : s.builds.map (fun b ↦ if b.address = front.address then f b else b) =
          f front :: bs := by
        rw [hb, List.map_cons, if_pos rfl]
        congr 1
        exact (List.map_congr_left fun b hmem ↦ if_neg (hne b hmem)).trans (List.map_id bs)
      have key := h.mapBuilds (fun b ↦ if b.address = front.address then f b else b)
        (fun b ↦ by split; exacts [haddress b, rfl]) (fun b ↦ by split; exacts [hcount b, rfl])
        (fun b ↦ by split; exacts [hbuf b, List.prefix_rfl])
      rw [hmap] at key
      exact key

theorem writeBuf (h : Tracks sent s) {str : List UInt8} (hrun : writeBuf str s = .ok s') :
    Tracks sent s' := by
  refine h.updateFront ?_ ?_ ?_ hrun
  · exact fun _ ↦ rfl
  · exact fun _ ↦ rfl
  · exact fun b ↦ List.prefix_append b.buf str

theorem nextChunk (h : Tracks sent s) (hrun : s.nextChunk = .ok s') : Tracks sent s' := by
  refine h.updateFront ?_ ?_ ?_ hrun
  · intro b
    split <;> rfl
  · intro b
    split <;> rfl
  · intro b
    split
    · exact List.prefix_rfl
    · exact List.prefix_append _ _

/-- The number of readers of a build after the entry of `fd` has changed. -/
theorem countP_updateClient (h : Tracks sent s) {fd : ℕ} {info : ClientInfo}
    (hfd : (fd, info) ∈ s.map) (f : ClientInfo → ClientInfo) (a : ℕ)
    (hnew : (f info).itBuild = some a) (hold : info.itBuild = none) :
    (s.updateClient fd f).map.countP (fun c ↦ c.2.itBuild = some a) =
      s.map.countP (fun c ↦ c.2.itBuild = some a) + 1 := by
  rw [updateClient, List.countP_map]
  refine Lib.countP_eq_add_one (List.Nodup.of_map _ h.map_nodup) hfd ?_ ?_ ?_
  · simp [hnew]
  · simp [hold]
  · intro c hc hne
    have hkey : c.1 ≠ fd := fun heq ↦ hne (h.client_eq hc hfd heq)
    simp [hkey]

/-- A client may change in its waiting flag. -/
theorem updateClient (h : Tracks sent s) (fd : ℕ) {f : ClientInfo → ClientInfo}
    (hbuild : ∀ x, (f x).itBuild = x.itBuild) (hptr : ∀ x, (f x).bufPtr = x.bufPtr) :
    Tracks sent (s.updateClient fd f) := by
  have hentry : ∀ c ∈ (s.updateClient fd f).map, ∃ c' ∈ s.map, c'.1 = c.1 ∧
      c'.2.itBuild = c.2.itBuild ∧ c'.2.bufPtr = c.2.bufPtr := by
    intro c hc
    obtain ⟨x, hx, rfl⟩ := List.mem_map.mp hc
    refine ⟨x, hx, ?_⟩
    split
    · exact ⟨rfl, (hbuild x.2).symm, (hptr x.2).symm⟩
    · exact ⟨rfl, rfl, rfl⟩
  refine ⟨?_, h.builds_nodup, h.fresh, ?_, ?_, ?_⟩
  · rw [keys_updateClient]
    exact h.map_nodup
  · intro b hb
    rw [h.refcount b hb, StreamServer.updateClient, List.countP_map]
    refine List.countP_congr fun c _ ↦ ?_
    simp only [Function.comp_apply]
    split <;> simp [hbuild]
  · intro c hc a ha
    obtain ⟨c', hc', hfst, hb, hp⟩ := hentry c hc
    rw [← hfst, ← hp]
    exact h.assigned c' hc' a (hb.trans ha)
  · intro c hc hnone
    obtain ⟨c', hc', hfst, hb, hp⟩ := hentry c hc
    rw [← hfst, ← hp]
    exact h.unassigned c' hc' (hb.trans hnone)

/-- A client that had no build is assigned to the current one. -/
theorem assign (h : Tracks sent s) {fd : ℕ} {info : ClientInfo} (hfd : (fd, info) ∈ s.map)
    (hnone : info.itBuild = none) {front : BuildInfo} {bs : List BuildInfo}
    (hbuilds : s.builds = front :: bs) {f : ClientInfo → ClientInfo}
    (hbuild : ∀ x, (f x).itBuild = some front.address) (hptr : ∀ x, (f x).bufPtr = x.bufPtr) :
    Tracks sent { s.updateClient fd f with
      builds := { front with refcount := front.refcount + 1 } :: bs } := by
  have hnd := h.builds_nodup
  rw [hbuilds, List.map_cons, List.nodup_cons] at hnd
  have hfront : front ∈ s.builds := by simp [hbuilds]
  obtain ⟨hzero, hempty⟩ := h.unassigned (fd, info) hfd hnone
  refine ⟨?_, ?_, ?_, ?_, ?_, ?_⟩
  · change ((s.updateClient fd f).map.map Prod.fst).Nodup
    rw [keys_updateClient]
    exact h.map_nodup
  · simpa using hnd
  · intro b hb
    rcases List.mem_cons.mp hb with rfl | hb
    · exact h.fresh front hfront
    · exact h.fresh b (by simp [hbuilds, hb])
  · intro b hb
    change b.refcount = (s.updateClient fd f).map.countP _
    rcases List.mem_cons.mp hb with rfl | hb
    · change front.refcount + 1 = _
      rw [h.refcount front hfront, h.countP_updateClient hfd f front.address (hbuild info) hnone]
    · have hne : front.address ≠ b.address := fun heq ↦ hnd.1 (heq ▸ List.mem_map_of_mem hb)
      rw [h.refcount b (by simp [hbuilds, hb]), StreamServer.updateClient, List.countP_map]
      refine List.countP_congr fun c hc ↦ ?_
      simp only [Function.comp_apply, decide_eq_true_eq]
      split
      · rename_i hkey
        have heq : c = (fd, info) := h.client_eq hc hfd hkey
        simp [heq, hnone, hne, hbuild]
      · rfl
  · intro c hc a ha
    obtain ⟨x, hx, rfl⟩ := List.mem_map.mp hc
    by_cases hkey : x.1 = fd
    · obtain rfl : x = (fd, info) := h.client_eq hx hfd hkey
      simp only [if_true, hbuild, Option.some.injEq] at ha
      simp only at hzero hempty
      refine ⟨_, List.mem_cons_self, ha, ?_, ?_⟩
      · simp [hptr, hzero]
      · simp [hptr, hzero, hempty]
    · simp only [hkey, if_false] at ha ⊢
      obtain ⟨b, hb, hba, hle, hsent⟩ := h.assigned x hx a ha
      rw [hbuilds] at hb
      rcases List.mem_cons.mp hb with rfl | hb
      · exact ⟨_, List.mem_cons_self, hba, hle, hsent⟩
      · exact ⟨b, List.mem_cons_of_mem _ hb, hba, hle, hsent⟩
  · intro c hc hnone'
    obtain ⟨x, hx, rfl⟩ := List.mem_map.mp hc
    by_cases hkey : x.1 = fd
    · simp only [hkey, if_true, hbuild] at hnone'
      cases hnone'
    · simp only [hkey, if_false] at hnone' ⊢
      exact h.unassigned x hx hnone'

theorem flushClient (h : Tracks sent s) {fd : ℕ} (hrun : s.flushClient fd = .ok s') :
    Tracks sent s' := by
  rw [StreamServer.flushClient] at hrun
  cases hlookup : s.map.lookup fd with
  | none => simp [hlookup] at hrun
  | some info =>
      cases hbuilds : s.builds with
      | nil => simp [hlookup, hbuilds] at hrun
      | cons front bs =>
          simp only [hlookup, hbuilds] at hrun
          have h₁ : Tracks sent (s.updateClient fd ({ · with isWaiting := false })) :=
            h.updateClient fd (fun _ ↦ rfl) (fun _ ↦ rfl)
          have hfd : (fd, { info with isWaiting := false }) ∈
              (s.updateClient fd ({ · with isWaiting := false })).map :=
            List.mem_map.mpr ⟨(fd, info), Lib.mem_of_lookup_eq_some hlookup, by simp⟩
          cases hb : info.itBuild with
          | none =>
              simp only [hb, Lib.except_pure, Except.ok.injEq] at hrun
              subst hrun
              exact (h₁.assign hfd hb hbuilds (f := ({ · with itBuild := some front.address }))
                (fun _ ↦ rfl) (fun _ ↦ rfl)).setLists _ _
          | some address =>
              simp only [hb, Lib.bind_eq_ok, assert_eq_ok, Lib.except_pure, Except.ok.injEq] at hrun
              obtain ⟨-, -, rfl⟩ := hrun
              exact h₁.setLists _ _

theorem flushWaiting (h : Tracks sent s) (hrun : s.flushWaiting = .ok s') : Tracks sent s' := by
  rw [StreamServer.flushWaiting] at hrun
  split at hrun
  · cases hrun
  · obtain ⟨-, -, hrun⟩ := Lib.bind_eq_ok.mp hrun
    obtain ⟨s₁, hloop, hpure⟩ := Lib.bind_eq_ok.mp hrun
    rw [← Except.ok.inj hpure]
    exact (Lib.foldlM_invariant (Tracks sent) (fun fd _ k k' hstep hk ↦ hk.flushClient hstep) hloop
      h).setLists _ _

/-- A build without readers can go. -/
theorem removeBuild (h : Tracks sent s) {b : BuildInfo} (hb : b ∈ s.builds)
    (hrun : s.removeBuild b = .ok s') : Tracks sent s' := by
  obtain ⟨u, hassert, hpure⟩ := Lib.bind_eq_ok.mp hrun
  rw [← Except.ok.inj hpure]
  have hzero : b.refcount = 0 := by
    simp only [assert_eq_ok, Bool.and_eq_true, decide_eq_true_eq] at hassert
    exact hassert.1
  refine ⟨h.map_nodup, ?_, ?_, ?_, ?_, h.unassigned⟩
  · exact h.builds_nodup.sublist (List.Sublist.map _ List.filter_sublist)
  · exact fun x hx ↦ h.fresh x (List.mem_of_mem_filter hx)
  · exact fun x hx ↦ h.refcount x (List.mem_of_mem_filter hx)
  · intro c hc a ha
    obtain ⟨x, hx, hxa, hle, hsent⟩ := h.assigned c hc a ha
    refine ⟨x, List.mem_filter.mpr ⟨hx, ?_⟩, hxa, hle, hsent⟩
    simp only [decide_eq_true_eq]
    intro heq
    have hcount := h.refcount b hb
    rw [hzero, eq_comm, List.countP_eq_zero] at hcount
    exact hcount c hc (by simp [ha, ← hxa, heq])

theorem dropPrevious (h : Tracks sent s) (hrun : s.dropPrevious = .ok s') : Tracks sent s' := by
  rw [StreamServer.dropPrevious] at hrun
  cases hbuilds : s.builds with
  | nil =>
      simp only [hbuilds, Lib.except_pure, Except.ok.injEq] at hrun
      exact hrun ▸ h
  | cons front bs =>
      simp only [hbuilds] at hrun
      obtain ⟨-, -, hrun⟩ := Lib.bind_eq_ok.mp hrun
      split at hrun
      · exact h.removeBuild (by simp [hbuilds]) hrun
      · exact Except.ok.inj hrun ▸ h

theorem pushBuild (h : Tracks sent s) (buildId : ℕ) : Tracks sent (s.pushBuild buildId) where
  map_nodup := h.map_nodup
  builds_nodup := by
    rw [StreamServer.pushBuild, List.map_cons, List.nodup_cons]
    refine ⟨fun hmem ↦ ?_, h.builds_nodup⟩
    obtain ⟨b, hb, heq⟩ := List.mem_map.mp hmem
    exact absurd (h.fresh b hb) (by simp [heq])
  fresh b hb := by
    rcases List.mem_cons.mp hb with rfl | hb
    · exact Nat.lt_succ_self _
    · exact (h.fresh b hb).trans (Nat.lt_succ_self _)
  refcount b hb := by
    rcases List.mem_cons.mp hb with rfl | hb
    · rw [eq_comm]
      change s.map.countP _ = 0
      rw [List.countP_eq_zero]
      intro c hc
      simp only [decide_eq_true_eq]
      intro ha
      obtain ⟨x, hx, hxa, -⟩ := h.assigned c hc _ ha
      exact absurd (h.fresh x hx) (by simp [hxa])
    · exact h.refcount b hb
  assigned c hc a ha := by
    obtain ⟨b, hb, hrest⟩ := h.assigned c hc a ha
    exact ⟨b, List.mem_cons_of_mem _ hb, hrest⟩
  unassigned := h.unassigned

section NewClient

variable (h : Tracks sent s) {fd : ℕ} (hfd : ∀ c ∈ s.map, c.1 ≠ fd)
include h hfd

theorem nodup_newClient : (fd :: s.map.map Prod.fst).Nodup := by
  refine List.nodup_cons.mpr ⟨fun hmem ↦ ?_, h.map_nodup⟩
  obtain ⟨c, hc, heq⟩ := List.mem_map.mp hmem
  exact hfd c hc heq

omit h in
theorem sent_newClient {c : ℕ × ClientInfo} (hc : c ∈ s.map) :
    Function.update sent fd [] c.1 = sent c.1 :=
  Function.update_of_ne (hfd c hc) _ _

theorem newClient_nil (hbuilds : s.builds = []) (isWaiting : Bool) :
    Tracks (Function.update sent fd []) { s with
      builds := []
      map := (fd, ⟨none, 0, isWaiting⟩) :: s.map } := by
  have hnone : ∀ c ∈ s.map, c.2.itBuild = none := by
    intro c hc
    cases ha : c.2.itBuild with
    | none => rfl
    | some a =>
        obtain ⟨b, hb, -⟩ := h.assigned c hc a ha
        rw [hbuilds] at hb
        cases hb
  refine ⟨h.nodup_newClient hfd, List.nodup_nil, by simp, by simp, ?_, ?_⟩
  · intro c hc a ha
    rcases List.mem_cons.mp hc with rfl | hc
    · cases ha
    · rw [hnone c hc] at ha
      cases ha
  · intro c hc hn
    rcases List.mem_cons.mp hc with rfl | hc
    · exact ⟨rfl, Function.update_self _ _ _⟩
    · rw [sent_newClient hfd hc]
      exact h.unassigned c hc hn

theorem newClient_cons {front : BuildInfo} {bs : List BuildInfo}
    (hbuilds : s.builds = front :: bs) (isWaiting : Bool) :
    Tracks (Function.update sent fd []) { s with
      builds := { front with refcount := front.refcount + 1 } :: bs
      map := (fd, ⟨some front.address, 0, isWaiting⟩) :: s.map } := by
  have hnd := h.builds_nodup
  rw [hbuilds, List.map_cons, List.nodup_cons] at hnd
  have hfront : front ∈ s.builds := by simp [hbuilds]
  refine ⟨h.nodup_newClient hfd, by simpa using hnd, ?_, ?_, ?_, ?_⟩
  · intro b hb
    rcases List.mem_cons.mp hb with rfl | hb
    · exact h.fresh front hfront
    · exact h.fresh b (by simp [hbuilds, hb])
  · intro b hb
    rcases List.mem_cons.mp hb with rfl | hb
    · change front.refcount + 1 = _
      rw [h.refcount front hfront]
      simp
    · have hne : front.address ≠ b.address :=
        fun heq ↦ hnd.1 (heq ▸ List.mem_map_of_mem hb)
      rw [h.refcount b (by simp [hbuilds, hb])]
      simp [hne]
  · intro c hc a ha
    rcases List.mem_cons.mp hc with rfl | hc
    · refine ⟨_, List.mem_cons_self, Option.some.inj ha, Nat.zero_le _, ?_⟩
      exact Function.update_self _ _ _
    · obtain ⟨b, hb, hba, hle, hs⟩ := h.assigned c hc a ha
      rw [sent_newClient hfd hc]
      rw [hbuilds] at hb
      rcases List.mem_cons.mp hb with rfl | hb
      · exact ⟨_, List.mem_cons_self, hba, hle, hs⟩
      · exact ⟨b, List.mem_cons_of_mem _ hb, hba, hle, hs⟩
  · intro c hc hn
    rcases List.mem_cons.mp hc with rfl | hc
    · cases hn
    · rw [sent_newClient hfd hc]
      exact h.unassigned c hc hn

/-- A new client has received nothing; its file descriptor is not in use. -/
theorem createClient : Tracks (Function.update sent fd []) (s.createClient fd) := by
  have hfilter : (s.map.filter fun c ↦ !decide (c.1 = fd)) = s.map :=
    List.filter_eq_self.mpr fun c hc ↦ by simp [hfd c hc]
  rw [StreamServer.createClient]
  generalize (s.builds.head?.all fun b ↦ decide (b.buf = [])) = isWaiting
  cases hbuilds : s.builds with
  | nil =>
      have key := h.newClient_nil hfd hbuilds isWaiting
      cases isWaiting with
      | true => simpa [hbuilds, hfilter] using key.setLists s.fds (fd :: s.waiting)
      | false => simpa [hbuilds, hfilter] using key.setLists (fd :: s.fds) s.waiting
  | cons front bs =>
      have key := h.newClient_cons hfd hbuilds isWaiting
      cases isWaiting with
      | true => simpa [hbuilds, hfilter] using key.setLists s.fds (fd :: s.waiting)
      | false => simpa [hbuilds, hfilter] using key.setLists (fd :: s.fds) s.waiting

end NewClient

/-- The state in which the client is gone, and its build has one reader less. -/
theorem release (h : Tracks sent s) {fd : ℕ} {info : ClientInfo} (hfd : (fd, info) ∈ s.map)
    {b : BuildInfo} (hb : b ∈ s.builds) (hinfo : info.itBuild = some b.address) :
    Tracks sent { s with
      builds := s.builds.map fun x ↦
        if x.address = b.address then { b with refcount := b.refcount - 1 } else x
      map := s.map.filter fun c ↦ c.1 ≠ fd } := by
  have hcount : ∀ a, s.map.countP (fun c ↦ c.2.itBuild = some a) =
      (s.map.filter fun c ↦ c.1 ≠ fd).countP (fun c ↦ c.2.itBuild = some a) +
        if a = b.address then 1 else 0 := by
    intro a
    rw [List.countP_filter]
    by_cases ha : a = b.address
    · rw [if_pos ha]
      refine Lib.countP_eq_add_one (List.Nodup.of_map _ h.map_nodup) hfd ?_ ?_ ?_
      · simp [hinfo, ha]
      · simp
      · intro c hc hne
        have hkey : c.1 ≠ fd := fun heq ↦ hne (h.client_eq hc hfd heq)
        simp [hkey]
    · rw [if_neg ha, add_zero]
      refine List.countP_congr fun c hc ↦ ?_
      simp only [decide_eq_true_eq, Bool.and_eq_true]
      refine ⟨fun hc' ↦ ⟨hc', fun heq ↦ ha ?_⟩, fun hc' ↦ hc'.1⟩
      have hceq : c = (fd, info) := h.client_eq hc hfd heq
      rw [hceq, hinfo] at hc'
      exact (Option.some.inj hc').symm
  have haddress : ∀ x : BuildInfo, (if x.address = b.address then
      { b with refcount := b.refcount - 1 } else x).address = x.address := by
    intro x
    split
    · rename_i heq
      exact heq.symm
    · rfl
  refine ⟨?_, ?_, ?_, ?_, ?_, ?_⟩
  · exact h.map_nodup.sublist (List.Sublist.map _ List.filter_sublist)
  · have heq : (s.builds.map fun x ↦ if x.address = b.address then
        { b with refcount := b.refcount - 1 } else x).map BuildInfo.address =
        s.builds.map BuildInfo.address := by
      rw [List.map_map]
      exact List.map_congr_left fun x _ ↦ haddress x
    rw [heq]
    exact h.builds_nodup
  · intro x hx
    obtain ⟨y, hy, rfl⟩ := List.mem_map.mp hx
    rw [haddress]
    exact h.fresh y hy
  · intro x hx
    obtain ⟨y, hy, rfl⟩ := List.mem_map.mp hx
    rw [haddress]
    have hy' := h.refcount y hy
    rw [hcount] at hy'
    by_cases heq : y.address = b.address
    · obtain rfl : y = b := h.build_eq hy hb heq
      simp only [if_true] at hy' ⊢
      omega
    · simp only [heq, if_false] at hy' ⊢
      exact hy'
  · intro c hc a ha
    obtain ⟨x, hx, hxa, hle, hs⟩ := h.assigned c (List.mem_of_mem_filter hc) a ha
    refine ⟨_, List.mem_map_of_mem hx, (haddress x).trans hxa, ?_⟩
    split
    · rename_i heq
      obtain rfl : x = b := h.build_eq hx hb heq
      exact ⟨hle, hs⟩
    · exact ⟨hle, hs⟩
  · exact fun c hc hn ↦ h.unassigned c (List.mem_of_mem_filter hc) hn

theorem closeClient (h : Tracks sent s) {fd : ℕ} (hrun : s.closeClient fd = .ok s') :
    Tracks sent s' := by
  rw [StreamServer.closeClient] at hrun
  cases hlookup : s.map.lookup fd with
  | none => simp [hlookup] at hrun
  | some info =>
      simp only [hlookup] at hrun
      cases hinfo : info.itBuild with
      | none => simp [hinfo] at hrun
      | some address =>
          simp only [hinfo] at hrun
          obtain ⟨s₁, hrelease, hpure⟩ := Lib.bind_eq_ok.mp hrun
          rw [← Except.ok.inj hpure]
          rw [releaseBuild] at hrelease
          cases hfind : s.builds.find? fun b ↦ b.address = address with
          | none => simp [hfind] at hrelease
          | some b =>
              have hb : b ∈ s.builds := List.mem_of_find?_eq_some hfind
              have haddress : b.address = address := by
                simpa using List.find?_some hfind
              subst haddress
              have h₁ := h.release (Lib.mem_of_lookup_eq_some hlookup) hb hinfo
              simp only [hfind] at hrelease
              split at hrelease
              · have hmem : { b with refcount := b.refcount - 1 } ∈ s.builds.map fun x ↦
                    if x.address = b.address then { b with refcount := b.refcount - 1 } else x :=
                  List.mem_map.mpr ⟨b, hb, if_pos rfl⟩
                obtain ⟨u, hassert, hremove⟩ := Lib.bind_eq_ok.mp hrelease
                rw [← Except.ok.inj hremove]
                have h₂ := h₁.removeBuild hmem (by
                  rw [StreamServer.removeBuild, hassert]
                  rfl)
                exact h₂.setLists (s.fds.erase fd) s.waiting
              · rw [← Except.ok.inj hrelease]
                exact h₁.setLists (s.fds.erase fd) s.waiting

end Tracks

/-- The calls that append to the buffer of the current build. -/
inductive Write where
  | newBuild (buildId : ℕ)
  | newCommand (cmdId : ℕ) (cmd : String)
  | writeStdout (cmdId : ℕ) (buf : List UInt8)
  | writeStderr (cmdId : ℕ) (buf : List UInt8)
  | endCommand (cmdId : ℕ) (status : SubProcessExitStatus)
  | cacheRetrieveAction (path : String)
  | endBuild (result : BuildResult)

def write : Write → StreamServer → Outcome StreamServer
  | .newBuild buildId => newBuild buildId
  | .newCommand cmdId cmd => newCommand cmdId cmd
  | .writeStdout cmdId buf => writeStdout cmdId buf
  | .writeStderr cmdId buf => writeStderr cmdId buf
  | .endCommand cmdId status => endCommand cmdId status
  | .cacheRetrieveAction path => cacheRetrieveAction path
  | .endBuild result => endBuild result

theorem Tracks.writeCmdOutput (h : Tracks sent s) {cmdId : ℕ} {buf : List UInt8} {isStdout : Bool}
    (hrun : writeCmdOutput cmdId buf isStdout s = .ok s') : Tracks sent s' := by
  obtain ⟨-, -, hrun⟩ := Lib.bind_eq_ok.mp hrun
  obtain ⟨s₁, hwrite, hflush⟩ := Lib.bind_eq_ok.mp hrun
  exact (h.writeBuf hwrite).flushWaiting hflush

theorem Tracks.write (h : Tracks sent s) {op : Write} (hrun : write op s = .ok s') :
    Tracks sent s' := by
  cases op with
  | newBuild buildId =>
      obtain ⟨s₁, hdrop, hrun⟩ := Lib.bind_eq_ok.mp hrun
      obtain ⟨s₂, hwrite, hflush⟩ := Lib.bind_eq_ok.mp hrun
      exact (((h.dropPrevious hdrop).pushBuild buildId).writeBuf hwrite).flushWaiting hflush
  | newCommand cmdId cmd =>
      obtain ⟨s₁, hchunk, hrun⟩ := Lib.bind_eq_ok.mp hrun
      obtain ⟨s₂, hwrite, hflush⟩ := Lib.bind_eq_ok.mp hrun
      exact ((h.nextChunk hchunk).writeBuf hwrite).flushWaiting hflush
  | writeStdout cmdId buf => exact h.writeCmdOutput hrun
  | writeStderr cmdId buf => exact h.writeCmdOutput hrun
  | endCommand cmdId status =>
      obtain ⟨s₁, hwrite, hflush⟩ := Lib.bind_eq_ok.mp hrun
      exact (h.writeBuf hwrite).flushWaiting hflush
  | cacheRetrieveAction path =>
      obtain ⟨s₁, hchunk, hrun⟩ := Lib.bind_eq_ok.mp hrun
      obtain ⟨s₂, hwrite, hflush⟩ := Lib.bind_eq_ok.mp hrun
      exact ((h.nextChunk hchunk).writeBuf hwrite).flushWaiting hflush
  | endBuild result =>
      rw [StreamServer.write, endBuild] at hrun
      split at hrun
      · cases hrun
      · obtain ⟨-, -, hrun⟩ := Lib.bind_eq_ok.mp hrun
        obtain ⟨s₁, hwrite, hrun⟩ := Lib.bind_eq_ok.mp hrun
        obtain ⟨s₂, hflush, hdone⟩ := Lib.bind_eq_ok.mp hrun
        refine ((h.writeBuf hwrite).flushWaiting hflush).updateFront ?_ ?_ ?_ hdone
        · exact fun _ ↦ rfl
        · exact fun _ ↦ rfl
        · exact fun _ ↦ List.prefix_rfl

/-! ## Sending -/

/-- The loop ends, as every `send` that does not end it transfers something. -/
theorem sendLoop_returns {buf handed : List UInt8} {start fuel i bufPtr bufSize : ℕ}
    {results : ℕ → SendResult} (hsize : bufPtr + bufSize = buf.length) (hpos : 0 < bufSize)
    (hfuel : bufSize ≤ fuel) :
    ∃ x, sendLoop buf start results fuel i bufPtr bufSize handed = .ok x := by
  induction fuel generalizing i bufPtr bufSize handed with
  | zero => omega
  | succ fuel ih =>
      rw [sendLoop]
      cases results i with
      | again => exact ⟨_, rfl⟩
      | failed => exact ⟨_, rfl⟩
      | sent more =>
          simp only
          split
          · exact ih (by omega) (by omega) (by omega)
          · exact ⟨_, rfl⟩

/-- After a short `send`, the next one of the same call transfers nothing. -/
def MaySend (s : StreamServer) (fd : ℕ) (results : ℕ → SendResult) : Prop :=
  ∀ info b, s.clientData fd = .ok (info, b) → ∀ more, results 0 = .sent more →
    more + 1 < b.buf.length - info.bufPtr → ∀ more', results 1 ≠ .sent more'

/-- A loop that transfers once hands over the bytes from `bufPtr` on. -/
theorem sendLoop_exact {buf handed : List UInt8} {start fuel bufPtr : ℕ}
    {results : ℕ → SendResult} {last : Option SendResult} (hstart : start < buf.length)
    (hmay : ∀ more, results 0 = .sent more → more + 1 < buf.length - start →
      ∀ more', results 1 ≠ .sent more')
    (hrun : sendLoop buf start results fuel 0 start (buf.length - start) [] =
      .ok (bufPtr, handed, last)) :
    bufPtr ≤ buf.length ∧ buf.take start ++ handed = buf.take bufPtr ∧
      (last = none → bufPtr = buf.length) := by
  cases fuel with
  | zero => cases hrun
  | succ fuel =>
      rw [sendLoop] at hrun
      cases hfirst : results 0 with
      | again =>
          simp only [hfirst, Lib.except_pure, Except.ok.injEq, Prod.mk.injEq] at hrun
          obtain ⟨rfl, rfl, rfl⟩ := hrun
          exact ⟨hstart.le, List.append_nil _, by simp⟩
      | failed =>
          simp only [hfirst, Lib.except_pure, Except.ok.injEq, Prod.mk.injEq] at hrun
          obtain ⟨rfl, rfl, rfl⟩ := hrun
          exact ⟨hstart.le, List.append_nil _, by simp⟩
      | sent more =>
          simp only [hfirst, List.nil_append, zero_add] at hrun
          generalize hr : min (more + 1) (buf.length - start) = r at hrun
          split at hrun
          · rename_i hlt
            have hnot := hmay more hfirst (by omega)
            cases fuel with
            | zero => cases hrun
            | succ fuel =>
                rw [sendLoop] at hrun
                cases hsecond : results 1 with
                | sent more' => exact absurd hsecond (hnot more')
                | again =>
                    simp only [hsecond, Lib.except_pure, Except.ok.injEq, Prod.mk.injEq] at hrun
                    obtain ⟨rfl, rfl, rfl⟩ := hrun
                    exact ⟨hlt.le, List.take_add.symm, by simp⟩
                | failed =>
                    simp only [hsecond, Lib.except_pure, Except.ok.injEq, Prod.mk.injEq] at hrun
                    obtain ⟨rfl, rfl, rfl⟩ := hrun
                    exact ⟨hlt.le, List.take_add.symm, by simp⟩
          · simp only [Lib.except_pure, Except.ok.injEq, Prod.mk.injEq] at hrun
            obtain ⟨rfl, rfl, rfl⟩ := hrun
            exact ⟨by omega, List.take_add.symm, fun _ ↦ by omega⟩

/-- The position of a client moves on together with what has been sent. -/
theorem Tracks.advance (h : Tracks sent s) {fd p : ℕ} {info : ClientInfo} {b : BuildInfo}
    (hfd : (fd, info) ∈ s.map) (hb : b ∈ s.builds) (hinfo : info.itBuild = some b.address)
    (hp : p ≤ b.buf.length) :
    Tracks (Function.update sent fd (b.buf.take p))
      (s.updateClient fd ({ · with bufPtr := p })) := by
  have hentry : ∀ c ∈ (s.updateClient fd ({ · with bufPtr := p })).map,
      c = (fd, { info with bufPtr := p }) ∨ c ∈ s.map ∧ c.1 ≠ fd := by
    intro c hc
    obtain ⟨x, hx, rfl⟩ := List.mem_map.mp hc
    by_cases hkey : x.1 = fd
    · left
      obtain rfl : x = (fd, info) := h.client_eq hx hfd hkey
      simp
    · right
      simp only [hkey, if_false]
      exact ⟨hx, hkey⟩
  refine ⟨?_, h.builds_nodup, h.fresh, ?_, ?_, ?_⟩
  · rw [keys_updateClient]
    exact h.map_nodup
  · intro x hx
    rw [h.refcount x hx, StreamServer.updateClient, List.countP_map]
    refine List.countP_congr fun c _ ↦ ?_
    simp only [Function.comp_apply]
    split <;> rfl
  · intro c hc a ha
    rcases hentry c hc with rfl | ⟨hc, hne⟩
    · rw [hinfo] at ha
      exact ⟨b, hb, Option.some.inj ha, hp, Function.update_self _ _ _⟩
    · rw [Function.update_of_ne hne]
      exact h.assigned c hc a ha
  · intro c hc hn
    rcases hentry c hc with rfl | ⟨hc, hne⟩
    · rw [hinfo] at hn
      cases hn
    · rw [Function.update_of_ne hne]
      exact h.unassigned c hc hn

theorem clientData_eq_ok {fd : ℕ} {info : ClientInfo} {b : BuildInfo}
    (h : s.clientData fd = .ok (info, b)) :
    (fd, info) ∈ s.map ∧ b ∈ s.builds ∧ info.itBuild = some b.address ∧
      info.bufPtr < b.buf.length := by
  rw [clientData] at h
  cases hlookup : s.map.lookup fd with
  | none => simp [hlookup] at h
  | some info' =>
      simp only [hlookup] at h
      cases hinfo : info'.itBuild with
      | none => simp [hinfo] at h
      | some address =>
          simp only [hinfo] at h
          cases hfind : s.builds.find? fun b ↦ b.address = address with
          | none => simp [hfind] at h
          | some b' =>
              simp only [hfind, Lib.bind_eq_ok, assert_eq_ok, decide_eq_true_eq, Lib.except_pure,
                Except.ok.injEq, Prod.mk.injEq] at h
              obtain ⟨-, hlt, rfl, rfl⟩ := h
              have haddress : b'.address = address := by simpa using List.find?_some hfind
              exact ⟨Lib.mem_of_lookup_eq_some hlookup, List.mem_of_find?_eq_some hfind,
                haddress ▸ hinfo, hlt⟩

theorem Tracks.drained (h : Tracks sent s) {fd : ℕ} {buildCompleted : Bool}
    (hrun : s.drained fd buildCompleted = .ok s') : Tracks sent s' := by
  rw [StreamServer.drained] at hrun
  split at hrun
  · exact h.closeClient hrun
  · rw [← Except.ok.inj hrun]
    exact (h.updateClient fd (f := ({ · with isWaiting := true })) (fun _ ↦ rfl)
      (fun _ ↦ rfl)).setLists _ _

/-- A call of `processClient` after whose short `send` nothing is transferred. -/
theorem Tracks.processClient (h : Tracks sent s) {fd : ℕ} {results : ℕ → SendResult}
    {handed : List UInt8} (hmay : s.MaySend fd results)
    (hrun : s.processClient fd results = .ok (handed, s')) :
    Tracks (Function.update sent fd (sent fd ++ handed)) s' := by
  obtain ⟨⟨info, b⟩, hdata, hrun⟩ := Lib.bind_eq_ok.mp hrun
  obtain ⟨hfd, hb, hinfo, hlt⟩ := clientData_eq_ok hdata
  obtain ⟨⟨bufPtr, handed', last⟩, hloop, hrun⟩ := Lib.bind_eq_ok.mp hrun
  obtain ⟨hle, htake, -⟩ := sendLoop_exact hlt (hmay info b hdata) hloop
  have hsent : sent fd ++ handed' = b.buf.take bufPtr := by
    obtain ⟨x, hx, hxa, -, hs⟩ := h.assigned (fd, info) hfd b.address hinfo
    obtain rfl : x = b := h.build_eq hx hb hxa
    rw [hs]
    exact htake
  have h₁ := h.advance hfd hb hinfo hle
  rw [← hsent] at h₁
  cases last with
  | none =>
      obtain ⟨s₂, hdrain, hpure⟩ := Lib.bind_eq_ok.mp hrun
      simp only [Lib.except_pure, Except.ok.injEq, Prod.mk.injEq] at hpure
      obtain ⟨rfl, rfl⟩ := hpure
      exact h₁.drained hdrain
  | some r =>
      cases r with
      | failed =>
          obtain ⟨s₂, hclose, hpure⟩ := Lib.bind_eq_ok.mp hrun
          simp only [Lib.except_pure, Except.ok.injEq, Prod.mk.injEq] at hpure
          obtain ⟨rfl, rfl⟩ := hpure
          exact h₁.closeClient hclose
      | again =>
          simp only [Lib.except_pure, Except.ok.injEq, Prod.mk.injEq] at hrun
          obtain ⟨rfl, rfl⟩ := hrun
          exact h₁
      | sent more =>
          simp only [Lib.except_pure, Except.ok.injEq, Prod.mk.injEq] at hrun
          obtain ⟨rfl, rfl⟩ := hrun
          exact h₁

theorem sendLoop_last {buf handed handed' : List UInt8} {start fuel i bufPtr bufSize bufPtr' : ℕ}
    {results : ℕ → SendResult} {r : SendResult}
    (hrun : sendLoop buf start results fuel i bufPtr bufSize handed =
      .ok (bufPtr', handed', some r)) : ∃ j, results j = r := by
  induction fuel generalizing i bufPtr bufSize handed with
  | zero => cases hrun
  | succ fuel ih =>
      rw [sendLoop] at hrun
      cases hi : results i with
      | again =>
          simp only [hi, Lib.except_pure, Except.ok.injEq, Prod.mk.injEq, Option.some.injEq] at hrun
          exact ⟨i, hi.trans hrun.2.2⟩
      | failed =>
          simp only [hi, Lib.except_pure, Except.ok.injEq, Prod.mk.injEq, Option.some.injEq] at hrun
          exact ⟨i, hi.trans hrun.2.2⟩
      | sent more =>
          simp only [hi] at hrun
          split at hrun
          · exact ih hrun
          · simp at hrun

theorem mem_keys_updateClient {fd : ℕ} {info : ClientInfo} (hfd : (fd, info) ∈ s.map)
    (f : ClientInfo → ClientInfo) : ∃ c ∈ (s.updateClient fd f).map, c.1 = fd :=
  ⟨(fd, f info), List.mem_map.mpr ⟨(fd, info), hfd, by simp⟩, rfl⟩

/-- A client that leaves without an error of `send` leaves after the last byte
of a completed build. -/
theorem Tracks.received (h : Tracks sent s) {fd : ℕ} {results : ℕ → SendResult}
    {handed : List UInt8} (hmay : s.MaySend fd results)
    (hrun : s.processClient fd results = .ok (handed, s')) (hok : ∀ i, results i ≠ .failed)
    (hgone : ∀ c ∈ s'.map, c.1 ≠ fd) :
    ∃ info b, s.clientData fd = .ok (info, b) ∧ b.buildCompleted = true ∧
      sent fd ++ handed = b.buf := by
  obtain ⟨⟨info, b⟩, hdata, hrun⟩ := Lib.bind_eq_ok.mp hrun
  obtain ⟨hfd, hb, hinfo, hlt⟩ := clientData_eq_ok hdata
  obtain ⟨⟨bufPtr, handed', last⟩, hloop, hrun⟩ := Lib.bind_eq_ok.mp hrun
  obtain ⟨hle, htake, hend⟩ := sendLoop_exact hlt (hmay info b hdata) hloop
  have hstays : ∀ f, ∃ c ∈ (s.updateClient fd f).map, c.1 = fd := mem_keys_updateClient hfd
  cases last with
  | none =>
      obtain ⟨s₂, hdrain, hpure⟩ := Lib.bind_eq_ok.mp hrun
      simp only [Lib.except_pure, Except.ok.injEq, Prod.mk.injEq] at hpure
      obtain ⟨rfl, rfl⟩ := hpure
      refine ⟨info, b, hdata, ?_, ?_⟩
      · by_contra hnot
        rw [StreamServer.drained, if_neg hnot] at hdrain
        rw [← Except.ok.inj hdrain] at hgone
        obtain ⟨⟨fd', info'⟩, hc, heq⟩ := hstays ({ · with bufPtr := bufPtr })
        obtain ⟨c', hc', heq'⟩ := mem_keys_updateClient hc ({ · with isWaiting := true })
        exact hgone c' (heq ▸ hc') (heq'.trans heq)
      · obtain ⟨x, hx, hxa, -, hs⟩ := h.assigned (fd, info) hfd b.address hinfo
        obtain rfl : x = b := h.build_eq hx hb hxa
        rw [hs]
        simp only
        rw [htake, hend rfl, List.take_length]
  | some r =>
      cases r with
      | failed =>
          obtain ⟨j, hj⟩ := sendLoop_last hloop
          exact absurd hj (hok j)
      | again =>
          simp only [Lib.except_pure, Except.ok.injEq, Prod.mk.injEq] at hrun
          obtain ⟨-, rfl⟩ := hrun
          obtain ⟨c, hc, heq⟩ := hstays ({ · with bufPtr := bufPtr })
          exact absurd heq (hgone c hc)
      | sent more =>
          simp only [Lib.except_pure, Except.ok.injEq, Prod.mk.injEq] at hrun
          obtain ⟨-, rfl⟩ := hrun
          obtain ⟨c, hc, heq⟩ := hstays ({ · with bufPtr := bufPtr })
          exact absurd heq (hgone c hc)

/-- The server, and what has been handed to the socket of each client since it
was accepted. -/
structure Session where
  server : StreamServer
  sent : ℕ → List UInt8

namespace Session

def start : Session := ⟨create, fun _ ↦ []⟩

/-- Accepting a client gives a file descriptor that no other client has. -/
inductive Step : Session → Session → Prop
  | write {σ op server} (hrun : σ.server.write op = .ok server) : Step σ { σ with server := server }
  | accept {σ fd} (hfd : ∀ c ∈ σ.server.map, c.1 ≠ fd) :
      Step σ ⟨σ.server.createClient fd, Function.update σ.sent fd []⟩
  | process {σ fd results handed server} (hmay : σ.server.MaySend fd results)
      (hrun : σ.server.processClient fd results = .ok (handed, server)) :
      Step σ ⟨server, Function.update σ.sent fd (σ.sent fd ++ handed)⟩

theorem Step.tracks {σ τ : Session} (hstep : Step σ τ) (h : Tracks σ.sent σ.server) :
    Tracks τ.sent τ.server := by
  cases hstep with
  | write hrun => exact h.write hrun
  | accept hfd => exact h.createClient hfd
  | process hmay hrun => exact h.processClient hmay hrun

theorem tracks_of_run {σ : Session} (hrun : Relation.ReflTransGen Step start σ) :
    Tracks σ.sent σ.server := by
  induction hrun with
  | refl => exact tracks_create
  | tail _ hstep ih => exact hstep.tracks ih

/-- In every run, what a client has been sent is the part of its build's buffer
before its position, and a client that is closed after the last byte of a
completed build has been sent the whole buffer. -/
theorem exact_delivery {σ : Session} (hrun : Relation.ReflTransGen Step start σ) :
    (∀ fd info, (fd, info) ∈ σ.server.map →
      (info.itBuild = none → info.bufPtr = 0 ∧ σ.sent fd = []) ∧
      ∀ address, info.itBuild = some address → ∃ b ∈ σ.server.builds, b.address = address ∧
        info.bufPtr ≤ b.buf.length ∧ σ.sent fd = b.buf.take info.bufPtr) ∧
    ∀ fd results handed server, σ.server.MaySend fd results →
      σ.server.processClient fd results = .ok (handed, server) → (∀ i, results i ≠ .failed) →
      (∀ c ∈ server.map, c.1 ≠ fd) →
      ∃ info b, σ.server.clientData fd = .ok (info, b) ∧ b.buildCompleted = true ∧
        σ.sent fd ++ handed = b.buf := by
  have h := tracks_of_run hrun
  refine ⟨fun fd info hmem ↦ ⟨h.unassigned (fd, info) hmem, h.assigned (fd, info) hmem⟩, ?_⟩
  exact fun fd results handed server hmay hprocess hok hgone ↦ h.received hmay hprocess hok hgone

/-! ## One client of the first build -/

/-- The buffer of a build that has just started. -/
def firstBuffer : List UInt8 := bytes "\x7b\n  \"id\": 0,\n  \"cmds\": [\n"

/-- The first build has one client, which has been sent `sent`. -/
def oneClient (bufPtr : ℕ) (sent : List UInt8) : Session where
  server := ⟨[⟨0, 0, firstBuffer, 1, false, true⟩], [(5, ⟨some 0, bufPtr, false⟩)], [5], [], 1⟩
  sent := Function.update (fun _ ↦ []) 5 sent

theorem oneClient_accepted : Relation.ReflTransGen Step start (oneClient 0 []) := by
  have hbuild : create.write (.newBuild 0) =
      .ok ⟨[⟨0, 0, firstBuffer, 0, false, true⟩], [], [], [], 1⟩ := by rfl
  have hclient : Step { start with
      server := ⟨[⟨0, 0, firstBuffer, 0, false, true⟩], [], [], [], 1⟩ } (oneClient 0 []) :=
    @Step.accept _ 5 (by simp)
  exact (Relation.ReflTransGen.single (.write hbuild)).tail hclient

/-- The first `send` takes four bytes and the second one would block. -/
theorem delivery_of_short_send :
    ∃ σ, Relation.ReflTransGen Step start σ ∧ σ.sent 5 = firstBuffer.take 4 := by
  have hmay : (oneClient 0 []).server.MaySend 5 fun i ↦ if i = 0 then .sent 3 else .again := by
    intro info b _ more _ _ more' hsecond
    cases hsecond
  have hprocess : (oneClient 0 []).server.processClient 5
      (fun i ↦ if i = 0 then .sent 3 else .again) =
      .ok (firstBuffer.take 4, (oneClient 4 []).server) := by rfl
  have hrun := oneClient_accepted.tail (.process hmay hprocess)
  obtain ⟨-, hassigned⟩ := (exact_delivery hrun).1 5 ⟨some 0, 4, false⟩ (List.mem_singleton_self _)
  obtain ⟨b, hb, -, -, hsent⟩ := hassigned 0 rfl
  refine ⟨_, hrun, hsent.trans ?_⟩
  rw [List.mem_singleton.mp hb]

/-- Two bytes are sent one by one in one call, and the first is sent twice. -/
theorem first_byte_sent_twice :
    Relation.ReflTransGen Step start (oneClient 0 []) ∧
      ∃ handed server, (oneClient 0 []).server.processClient 5
        (fun i ↦ if i < 2 then .sent 0 else .again) = .ok (handed, server) ∧
      ∃ b ∈ server.builds, (5, ⟨some b.address, 2, false⟩) ∈ server.map ∧
        (oneClient 0 []).sent 5 ++ handed ≠ b.buf.take 2 := by
  refine ⟨oneClient_accepted, firstBuffer.take 1 ++ firstBuffer.take 1, (oneClient 2 []).server,
    by rfl, _, List.mem_singleton_self _, List.mem_singleton_self _, ?_⟩
  change firstBuffer.take 1 ++ firstBuffer.take 1 ≠ firstBuffer.take 2
  decide

end Session

end StreamServer

end Falcon
