import Falcon.Stream.Bookkeeping

/-!
# The end of the stream server

The destructor closes all clients, and `closeClient` is written for a client
that is polled: it takes the element of the list of file descriptors out of
`fds_`, and follows the iterator to the build.
-/

namespace Falcon

namespace StreamServer

/-- The descriptors that have been closed, each with whether `fds_` held the
element that was erased from it. -/
structure Shutdown where
  server : StreamServer
  closed : List (ℕ × Bool)

def shutdownClient (t : Shutdown) (fd : ℕ) : Outcome Shutdown := do
  let s ← t.server.closeClient fd
  pure ⟨s, t.closed ++ [(fd, decide (fd ∈ t.server.fds))]⟩

/-- `~StreamServer`, where `order` is the order of the hash map. -/
def destroy (order : List ℕ) (s : StreamServer) : Outcome Shutdown :=
  order.foldlM shutdownClient ⟨s, []⟩

/-- All clients are closed, each once, by taking them out of the list they are
in, and nobody reads a build any more. -/
def ShutsDown (order : List ℕ) (s : StreamServer) : Prop :=
  ∃ t, destroy order s = .ok t ∧ (t.closed.map Prod.fst).Nodup ∧
    (∀ fd, fd ∈ t.closed.map Prod.fst ↔ ∃ c ∈ s.map, c.1 = fd) ∧ (∀ x ∈ t.closed, x.2 = true) ∧
    (∀ b ∈ t.server.builds, b.refcount = 0) ∧
    t.server.map = [] ∧ t.server.fds = [] ∧ t.server.waiting = []

variable {s s' : StreamServer} {fd : ℕ}

theorem releaseBuild_fds {address : ℕ} (h : s.releaseBuild address = .ok s') : s'.fds = s.fds := by
  rw [releaseBuild] at h
  split at h
  · cases h
  · simp only at h
    split at h
    · obtain ⟨_, -, h⟩ := Lib.bind_eq_ok.mp h
      rw [← Except.ok.inj h]
    · rw [← Except.ok.inj h]

theorem closeClient_fds (h : s.closeClient fd = .ok s') : s'.fds = s.fds.erase fd := by
  rw [closeClient] at h
  split at h
  · cases h
  · split at h
    · cases h
    · obtain ⟨s₁, hrelease, h⟩ := Lib.bind_eq_ok.mp h
      rw [← Except.ok.inj h, releaseBuild_fds hrelease]

/-- While no client waits, the clients leave one after the other. -/
theorem destroy_of_polled (h : s.Kept) (hpolled : ∀ c ∈ s.map, c.2.isWaiting = false)
    {order : List ℕ} (horder : order.Perm (s.map.map Prod.fst)) :
    ∃ t, destroy order s = .ok t ∧ t.server.Kept ∧
      t.server.map = (s.map.filter fun c ↦ c.1 ∉ order) ∧
      t.closed = order.map fun fd ↦ (fd, true) := by
  obtain ⟨sent, htracks⟩ := h.tracks
  have hnodup : order.Nodup := horder.nodup_iff.mpr htracks.map_nodup
  refine Lib.foldlM_rule (fun pre (t : Shutdown) ↦ t.server.Kept ∧
      t.server.map = (s.map.filter fun c ↦ c.1 ∉ pre) ∧ t.closed = pre.map fun fd ↦ (fd, true))
    ⟨h, by simp, rfl⟩ ?_
  rintro pre fd post t hl ⟨hkept, hmap, hclosed⟩
  obtain ⟨⟨fd', info⟩, hc, rfl⟩ : ∃ c ∈ s.map, c.1 = fd := by
    have hmem : fd ∈ s.map.map Prod.fst := horder.subset (by simp [hl])
    exact List.mem_map.mp hmem
  have hnot : fd' ∉ pre := by
    intro hmem
    rw [hl] at hnodup
    exact (List.nodup_append.mp hnodup).2.2 fd' hmem fd' List.mem_cons_self rfl
  have hc' : (fd', info) ∈ t.server.map := by
    rw [hmap]
    exact List.mem_filter.mpr ⟨hc, by simpa using hnot⟩
  obtain ⟨s', hrun, hkept', hmap', -⟩ := hkept.closeClient hc' (hpolled _ hc)
  have hfds : fd' ∈ t.server.fds := ((hkept.listed.client _ hc').2).mpr (hpolled _ hc)
  refine ⟨_, by rw [shutdownClient, hrun]; rfl, hkept', ?_, ?_⟩
  · rw [hmap', hmap, List.filter_filter]
    refine List.filter_congr fun c _ ↦ ?_
    simp [and_comm]
  · rw [hclosed, List.map_append]
    simp [hfds]

/-- What was not polled at the start is not found in `fds_`. -/
theorem destroy_not_polled {order : List ℕ} {t : Shutdown} (hrun : destroy order s = .ok t)
    (hfd : fd ∈ order) (hnot : fd ∉ s.fds) : (fd, false) ∈ t.closed := by
  have hinv : t.server.fds ⊆ s.fds ∧ ∀ x ∈ order, x ∉ s.fds → (x, false) ∈ t.closed := by
    refine Lib.foldlM_prefix (fun pre (t : Shutdown) ↦
      t.server.fds ⊆ s.fds ∧ ∀ x ∈ pre, x ∉ s.fds → (x, false) ∈ t.closed)
      ⟨List.Subset.refl _, by simp⟩ ?_ hrun
    rintro pre x - u u' - ⟨hsub, hall⟩ hstep
    obtain ⟨s', hclose, hpure⟩ := Lib.bind_eq_ok.mp hstep
    rw [← Except.ok.inj hpure]
    refine ⟨?_, fun y hy hno ↦ ?_⟩
    · rw [closeClient_fds hclose]
      exact fun y hy ↦ hsub (List.mem_of_mem_erase hy)
    · rcases List.mem_append.mp hy with hy | hy
      · exact List.mem_append_left _ (hall y hy hno)
      · obtain rfl := List.mem_singleton.mp hy
        have hout : y ∉ u.server.fds := fun hmem ↦ hno (hsub hmem)
        simp [hout]
  exact hinv.2 fd hfd hnot

/-- The destructor shuts the server down just if no client waits. -/
theorem shutsDown_iff {p : Phase} (h : Reachable s p) {order : List ℕ}
    (horder : order.Perm (s.map.map Prod.fst)) : ShutsDown order s ↔ s.waiting = [] := by
  have hkept := h.kept.1
  constructor
  · rintro ⟨t, hrun, -, -, hpolled, -⟩
    refine List.eq_nil_iff_forall_not_mem.mpr fun fd hfd ↦ ?_
    obtain ⟨c, hc, rfl⟩ := hkept.listed.known fd (Or.inr hfd)
    have hnot : c.1 ∉ s.fds := fun hmem ↦ hkept.listed.disjoint hmem hfd
    have hmem : c.1 ∈ order := horder.symm.subset (List.mem_map_of_mem hc)
    have hfalse := hpolled _ (destroy_not_polled hrun hmem hnot)
    cases hfalse
  · intro hwaiting
    have hpolled : ∀ c ∈ s.map, c.2.isWaiting = false := by
      intro c hc
      rw [← Bool.not_eq_true, ← (hkept.listed.client c hc).1, hwaiting]
      exact List.not_mem_nil
    obtain ⟨t, hrun, hkept', hmap, hclosed⟩ := destroy_of_polled hkept hpolled horder
    obtain ⟨sent, htracks⟩ := hkept.tracks
    obtain ⟨sent', htracks'⟩ := hkept'.tracks
    have hkeys : t.closed.map Prod.fst = order := by
      rw [hclosed, List.map_map]
      exact List.map_id order
    have hnil : t.server.map = [] := by
      rw [hmap]
      refine List.filter_eq_nil_iff.mpr fun c hc ↦ ?_
      simpa using horder.symm.subset (List.mem_map_of_mem hc)
    have hnobody : ∀ fd, ¬ (fd ∈ t.server.fds ∨ fd ∈ t.server.waiting) := by
      intro fd hfd
      obtain ⟨c, hc, -⟩ := hkept'.listed.known fd hfd
      rw [hnil] at hc
      cases hc
    refine ⟨t, hrun, ?_, fun fd ↦ ?_, ?_, fun b hb ↦ ?_, hnil, ?_, ?_⟩
    · rw [hkeys]
      exact horder.nodup_iff.mpr htracks.map_nodup
    · rw [hkeys, horder.mem_iff, List.mem_map]
    · rw [hclosed]
      intro x hx
      obtain ⟨fd, -, rfl⟩ := List.mem_map.mp hx
      rfl
    · rw [htracks'.refcount b hb, hnil]
      rfl
    · exact List.eq_nil_iff_forall_not_mem.mpr fun fd hfd ↦ hnobody fd (Or.inl hfd)
    · exact List.eq_nil_iff_forall_not_mem.mpr fun fd hfd ↦ hnobody fd (Or.inr hfd)

/-- A client that reads the current build. -/
theorem shutsDown_reading : ∃ s, Reachable s (.building false) ∧ s.map ≠ [] ∧
    ShutsDown (s.map.map Prod.fst) s := by
  have haccept := Reachable.create.step (e := .accept 5) ⟨by simp [create], rfl⟩ rfl
  have hbuild := haccept.step (e := .write (.newBuild 0)) rfl rfl
  exact ⟨_, hbuild, List.cons_ne_nil _ _, (shutsDown_iff hbuild (.refl _)).mpr rfl⟩

/-- A client that waits for the first build. -/
theorem not_shutsDown_first_build :
    ¬ ∀ (s : StreamServer) (p : Phase) (order : List ℕ), Reachable s p →
      order.Perm (s.map.map Prod.fst) → ShutsDown order s := by
  intro hclaim
  have haccept := Reachable.create.step (e := .accept 5) ⟨by simp [create], rfl⟩ rfl
  obtain ⟨t, hrun, -⟩ := hclaim _ _ [5] haccept (.refl _)
  cases hrun

end StreamServer

end Falcon
