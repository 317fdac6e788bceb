import Falcon.Stream.Document
import Falcon.Stream.Polling

/-!
# The documents that are kept

The server keeps the buffer of a build as long as a client reads it.  Whatever clients come and
go and whatever builds follow, it stays the document of its build.
-/

namespace Falcon

namespace StreamServer

variable {s s' s'' : StreamServer} {fd : ℕ} {info : ClientInfo} {docs : List (List UInt8)}

/-- The builds that are left have the texts that they had. -/
structure Keeps (s s' : StreamServer) : Prop where
  nextAddress : s'.nextAddress = s.nextAddress
  texts : ∀ x ∈ s'.builds, ∃ y ∈ s.builds, x.address = y.address ∧ x.buf = y.buf

/-- Only the text of the build in front has changed. -/
structure OnlyFront (s s' : StreamServer) : Prop where
  nextAddress : s'.nextAddress = s.nextAddress
  front : s'.builds.head?.map BuildInfo.address = s.builds.head?.map BuildInfo.address
  texts : ∀ x ∈ s'.builds, ∃ y ∈ s.builds, x.address = y.address ∧
    (s.builds.head?.map BuildInfo.address ≠ some y.address → x.buf = y.buf)

theorem Keeps.of_eq (hnext : s'.nextAddress = s.nextAddress) (hbuilds : s'.builds = s.builds) :
    Keeps s s' :=
  ⟨hnext, fun x hx ↦ ⟨x, hbuilds ▸ hx, rfl, rfl⟩⟩

theorem OnlyFront.of_eq (hnext : s'.nextAddress = s.nextAddress)
    (hbuilds : s'.builds = s.builds) : OnlyFront s s' :=
  ⟨hnext, by rw [hbuilds], fun x hx ↦ ⟨x, hbuilds ▸ hx, rfl, fun _ ↦ rfl⟩⟩

theorem OnlyFront.trans (h : OnlyFront s s') (h' : OnlyFront s' s'') : OnlyFront s s'' := by
  refine ⟨h'.nextAddress.trans h.nextAddress, h'.front.trans h.front, fun x hx ↦ ?_⟩
  obtain ⟨y, hy, hxy, htext⟩ := h'.texts x hx
  obtain ⟨z, hz, hyz, htext'⟩ := h.texts y hy
  refine ⟨z, hz, hxy.trans hyz, fun hne ↦ ?_⟩
  rw [htext (by rwa [h.front, hyz]), htext' hne]

theorem onlyFront_cons {front front' : BuildInfo} {bs : List BuildInfo}
    (hnext : s'.nextAddress = s.nextAddress) (hbuilds : s.builds = front :: bs)
    (hbuilds' : s'.builds = front' :: bs) (haddress : front'.address = front.address) :
    OnlyFront s s' := by
  refine ⟨hnext, by simp [hbuilds, hbuilds', haddress], fun x hx ↦ ?_⟩
  rw [hbuilds'] at hx
  rw [hbuilds]
  rcases List.mem_cons.mp hx with rfl | hx
  · exact ⟨front, List.mem_cons_self, haddress, fun hne ↦ absurd rfl hne⟩
  · exact ⟨x, List.mem_cons_of_mem _ hx, rfl, fun _ ↦ rfl⟩

/-- The build in front stays where it is. -/
theorem Keeps.onlyFront (h : Keeps s s') (hsame : SameText s s') : OnlyFront s s' := by
  refine ⟨h.nextAddress, ?_, fun x hx ↦ ?_⟩
  · cases hbuilds : s.builds with
    | nil =>
        have hnone : s'.builds = [] := by
          refine List.eq_nil_iff_forall_not_mem.mpr fun x hx ↦ ?_
          obtain ⟨y, hy, -⟩ := h.texts x hx
          rw [hbuilds] at hy
          cases hy
        rw [hnone]
    | cons front bs =>
        obtain ⟨refcount, rest, hbuilds'⟩ := hsame front bs hbuilds
        rw [hbuilds']
        rfl
  · obtain ⟨y, hy, haddress, htext⟩ := h.texts x hx
    exact ⟨y, hy, haddress, fun _ ↦ htext⟩

/-! ## Calls of the daemon -/

theorem onlyFront_updateFront {f : BuildInfo → BuildInfo} (h : s.updateFront f = .ok s')
    (haddress : ∀ b, (f b).address = b.address) : OnlyFront s s' := by
  rw [updateFront] at h
  split at h
  · cases h
  · rename_i b bs hbuilds
    obtain rfl := Except.ok.inj h
    exact onlyFront_cons rfl hbuilds rfl (haddress b)

theorem onlyFront_flushClient (h : s.flushClient fd = .ok s') : OnlyFront s s' := by
  rw [flushClient] at h
  split at h
  · cases h
  · cases h
  · rename_i hbuilds
    simp only at h
    split at h
    · obtain rfl := Except.ok.inj h
      exact onlyFront_cons rfl hbuilds rfl rfl
    · obtain ⟨-, -, h⟩ := Lib.bind_eq_ok.mp h
      obtain rfl := Except.ok.inj h
      exact .of_eq rfl rfl

theorem onlyFront_flushWaiting (h : s.flushWaiting = .ok s') : OnlyFront s s' := by
  rw [flushWaiting] at h
  split at h
  · cases h
  · obtain ⟨-, -, h⟩ := Lib.bind_eq_ok.mp h
    obtain ⟨s₁, hloop, h⟩ := Lib.bind_eq_ok.mp h
    obtain rfl := Except.ok.inj h
    have hfront : OnlyFront s s₁ := Lib.foldlM_preserves OnlyFront (fun _ ↦ .of_eq rfl rfl)
      (fun _ _ _ ↦ .trans) (fun _ _ _ _ hstep ↦ onlyFront_flushClient hstep) hloop
    exact hfront.trans (.of_eq rfl rfl)

theorem onlyFront_writeBuf {str : List UInt8}
    (h : (do let s ← writeBuf str s; s.flushWaiting) = .ok s') : OnlyFront s s' := by
  obtain ⟨s₁, hwrite, hflush⟩ := Lib.bind_eq_ok.mp h
  exact (onlyFront_updateFront hwrite fun _ ↦ rfl).trans (onlyFront_flushWaiting hflush)

/-- A call within a build changes its document only. -/
theorem onlyFront_write {op : Write} (hop : op.IsChunk) (h : write op s = .ok s') :
    OnlyFront s s' := by
  cases hstarts : op.starts with
  | true =>
      rw [write_starts hstarts] at h
      obtain ⟨s₁, hchunk, h⟩ := Lib.bind_eq_ok.mp h
      exact (onlyFront_updateFront hchunk fun b ↦ by split <;> rfl).trans (onlyFront_writeBuf h)
  | false => exact onlyFront_writeBuf (write_follows hop hstarts h)

theorem onlyFront_endBuild {result : BuildResult} (h : endBuild result s = .ok s') :
    OnlyFront s s' := by
  rw [endBuild] at h
  split at h
  · cases h
  · obtain ⟨-, -, h⟩ := Lib.bind_eq_ok.mp h
    obtain ⟨s₁, hwrite, h⟩ := Lib.bind_eq_ok.mp h
    obtain ⟨s₂, hflush, hdone⟩ := Lib.bind_eq_ok.mp h
    exact (onlyFront_updateFront hwrite fun _ ↦ rfl).trans
      ((onlyFront_flushWaiting hflush).trans (onlyFront_updateFront hdone fun _ ↦ rfl))

theorem keeps_dropPrevious (h : s.dropPrevious = .ok s') : Keeps s s' := by
  rw [dropPrevious] at h
  split at h
  · obtain rfl := Except.ok.inj h
    exact .of_eq rfl rfl
  · obtain ⟨-, -, h⟩ := Lib.bind_eq_ok.mp h
    split at h
    · obtain ⟨-, -, h⟩ := Lib.bind_eq_ok.mp h
      obtain rfl := Except.ok.inj h
      exact ⟨rfl, fun x hx ↦ ⟨x, List.mem_of_mem_filter hx, rfl, rfl⟩⟩
    · obtain rfl := Except.ok.inj h
      exact .of_eq rfl rfl

/-! ## Clients -/

/-- What the thread of the server has done for a client. -/
inductive Delivery where
  | accepted (fd : ℕ)
  | treated (v : Treated)

/-- `sent` is what each client has been handed since it was accepted. -/
def Delivery.receive (sent : ℕ → List UInt8) : Delivery → ℕ → List UInt8
  | .accepted fd => Function.update sent fd []
  | .treated v => Function.update sent v.fd (sent v.fd ++ v.handed)

def Polling.deliveries (t : Polling) (accept : AcceptResult) (treated : List Treated) :
    List Delivery :=
  match t.loop with
  | .accepting _ =>
    match accept with
    | .client fd => [.accepted fd]
    | _ => []
  | _ => treated.map .treated

/-- What the thread of the server does to it in one step. -/
inductive ClientStep (s : StreamServer) (results : ℕ → SendResult) :
    List Delivery → StreamServer → Prop
  | nothing : ClientStep s results [] s
  | accept {fd : ℕ} (hfd : ∀ c ∈ s.map, c.1 ≠ fd) :
      ClientStep s results [.accepted fd] (s.createClient fd)
  | process {fd : ℕ} {handed s'} (hfd : fd ∈ s.fds)
      (hrun : s.processClient fd results = .ok (handed, s')) :
      ClientStep s results [.treated ⟨fd, handed, s'.map.all fun c ↦ c.1 ≠ fd⟩] s'

theorem Kept.keeps_createClient (h : s.Kept) (hfd : ∀ c ∈ s.map, c.1 ≠ fd) :
    Keeps s (s.createClient fd) := by
  cases hbuilds : s.builds with
  | nil =>
      rw [createClient_nil hfd hbuilds]
      exact .of_eq rfl rfl
  | cons front bs =>
      have hbuf : front.buf ≠ [] := h.served.written front (by simp [hbuilds])
      rw [createClient_cons hfd hbuilds hbuf]
      refine ⟨rfl, fun x hx ↦ ?_⟩
      rw [hbuilds]
      rcases List.mem_cons.mp hx with rfl | hx
      · exact ⟨front, List.mem_cons_self, rfl, rfl⟩
      · exact ⟨x, List.mem_cons_of_mem _ hx, rfl, rfl⟩

theorem Kept.keeps_closeClient (h : s.Kept) (hfd : (fd, info) ∈ s.map)
    (hpolled : info.isWaiting = false) (hrun : s.closeClient fd = .ok s') : Keeps s s' := by
  obtain ⟨sent, htracks⟩ := h.tracks
  obtain ⟨b, hb, hbuild, -⟩ := h.served.reading _ hfd hpolled
  obtain ⟨builds, hrelease, hreleased⟩ := h.releaseBuild hb
  simp only at hbuild
  rw [StreamServer.closeClient, lookup_of_mem htracks.map_nodup hfd] at hrun
  simp only [hbuild, hrelease, Lib.except_ok_bind, Lib.except_pure, Except.ok.injEq] at hrun
  rw [← hrun]
  exact ⟨rfl, hreleased.same⟩

theorem Kept.keeps_processClient (h : s.Kept) (hfd : fd ∈ s.fds) {results : ℕ → SendResult}
    {handed : List UInt8} (hrun : s.processClient fd results = .ok (handed, s')) :
    Keeps s s' := by
  obtain ⟨sent, htracks⟩ := h.tracks
  obtain ⟨⟨fd', info⟩, hc, rfl⟩ := h.listed.known fd (Or.inl hfd)
  have hpolled : info.isWaiting = false := ((h.listed.client _ hc).2).mp hfd
  simp only [StreamServer.processClient, Lib.bind_eq_ok] at hrun
  obtain ⟨⟨info', b⟩, -, ⟨bufPtr, handed', last⟩, -, hrun⟩ := hrun
  have hclose := closeClient_updateClient (f := ({ · with bufPtr := bufPtr }))
    htracks.map_nodup hc fun _ ↦ rfl
  cases last with
  | none =>
      simp only [Lib.bind_eq_ok, Lib.except_pure, Except.ok.injEq, Prod.mk.injEq] at hrun
      obtain ⟨s₁, hdrained, -, rfl⟩ := hrun
      rw [drained] at hdrained
      split at hdrained
      · rw [hclose] at hdrained
        exact h.keeps_closeClient hc hpolled hdrained
      · rw [← Except.ok.inj hdrained]
        exact .of_eq rfl rfl
  | some r =>
      cases r with
      | failed =>
          simp only [Lib.bind_eq_ok, Lib.except_pure, Except.ok.injEq, Prod.mk.injEq] at hrun
          obtain ⟨s₁, hclosed, -, rfl⟩ := hrun
          rw [hclose] at hclosed
          exact h.keeps_closeClient hc hpolled hclosed
      | again =>
          obtain ⟨-, rfl⟩ := Prod.mk.inj (Except.ok.inj hrun)
          exact .of_eq rfl rfl
      | sent more =>
          obtain ⟨-, rfl⟩ := Prod.mk.inj (Except.ok.inj hrun)
          exact .of_eq rfl rfl

/-- Clients change no text. -/
theorem Kept.clientStep (h : s.Kept) {results : ℕ → SendResult} {ds : List Delivery}
    (hstep : ClientStep s results ds s') : Keeps s s' ∧ SameText s s' := by
  cases hstep with
  | nothing => exact ⟨.of_eq rfl rfl, .of_eq rfl⟩
  | accept hfd => exact ⟨h.keeps_createClient hfd, h.sameText_createClient hfd⟩
  | process hfd hrun => exact ⟨h.keeps_processClient hfd hrun, h.sameText_processClient hfd hrun⟩

theorem Tracks.clientStep {sent : ℕ → List UInt8} (h : Tracks sent s) {results : ℕ → SendResult}
    {ds : List Delivery} (hstep : ClientStep s results ds s')
    (hmay : ∀ fd ∈ s.fds, s.MaySend fd results) : Tracks (ds.foldl Delivery.receive sent) s' := by
  cases hstep with
  | nothing => exact h
  | accept hfd => exact h.createClient hfd
  | process hfd hrun => exact h.processClient (hmay _ hfd) hrun

namespace Polling

variable {t t' : Polling} {evs : List Treated}

theorem Sound.clientStep (h : t.Sound) {poll : PollResult} {accept : AcceptResult}
    {results : ℕ → SendResult} (hpossible : t.Possible (.thread poll accept results))
    (hrun : t.step (.thread poll accept results) = .ok (evs, t')) :
    t'.daemon = t.daemon ∧ ClientStep t.server results (t.deliveries accept evs) t'.server := by
  have hquiet : ∀ {loop : Loop}, t.deliveries accept [] = [] →
      (pure ([], { t with loop := loop }) : Outcome (List Treated × Polling)) = .ok (evs, t') →
      t'.daemon = t.daemon ∧ ClientStep t.server results (t.deliveries accept evs) t'.server := by
    intro loop hnone hpure
    obtain ⟨rfl, rfl⟩ := Prod.mk.inj (Except.ok.inj hpure)
    rw [hnone]
    exact ⟨rfl, .nothing⟩
  rw [Polling.step] at hrun
  cases hloop : t.loop with
  | test =>
      have hnone : t.deliveries accept [] = [] := by simp [deliveries, hloop]
      simp only [hloop] at hrun
      split at hrun <;> exact hquiet hnone hrun
  | polling fds =>
      have hnone : t.deliveries accept [] = [] := by simp [deliveries, hloop]
      simp only [hloop] at hrun
      cases poll with
      | failed => cases hrun
      | interrupted => exact hquiet hnone hrun
      | ready revents => exact hquiet hnone hrun
  | walking entries =>
      have hnone : t.deliveries accept [] = [] := by simp [deliveries, hloop]
      cases entries with
      | nil =>
          simp only [hloop] at hrun
          exact hquiet hnone hrun
      | cons entry entries =>
          obtain ⟨fd, revents⟩ := entry
          have hfd : fd ∈ t.server.fds ∨ fd = t.serverSocket ∨ fd = t.eventFd :=
            h.left fd (hloop ▸ List.mem_cons_self)
          simp only [hloop, Polling.visit] at hrun
          split at hrun
          · exact hquiet hnone hrun
          · split at hrun
            · split at hrun <;> exact hquiet hnone hrun
            · rename_i hserver
              split at hrun
              · rename_i hevent
                split at hrun
                · obtain ⟨⟨handed, server⟩, hprocess, hpure⟩ := Lib.bind_eq_ok.mp hrun
                  obtain ⟨rfl, rfl⟩ := Prod.mk.inj (Except.ok.inj hpure)
                  rw [or_iff_left (by simp [hserver, hevent])] at hfd
                  refine ⟨rfl, ?_⟩
                  simp only [deliveries, hloop]
                  exact .process hfd hprocess
                · exact hquiet hnone hrun
              · exact hquiet hnone hrun
  | accepting entries =>
      simp only [hloop] at hrun
      cases accept with
      | failed => cases hrun
      | again =>
          have hnone : t.deliveries .again [] = [] := by simp [deliveries, hloop]
          exact hquiet hnone hrun
      | client fd =>
          obtain ⟨rfl, rfl⟩ := Prod.mk.inj (Except.ok.inj hrun)
          refine ⟨rfl, ?_⟩
          simp only [deliveries, hloop]
          exact .accept (hpossible entries fd hloop rfl).1
  | returned =>
      have hnone : t.deliveries accept [] = [] := by simp [deliveries, hloop]
      simp only [hloop] at hrun
      obtain ⟨rfl, rfl⟩ := Prod.mk.inj (Except.ok.inj hrun)
      rw [hnone]
      exact ⟨rfl, .nothing⟩

end Polling

/-! ## The archive -/

/-- Between builds: each build that is kept has its document. -/
structure Filed (docs : List (List UInt8)) (s : StreamServer) : Prop where
  nextAddress : s.nextAddress = docs.length
  texts : ∀ b ∈ s.builds, docs[b.address]? = some b.buf

/-- During a build, which comes behind those of `docs`. -/
structure Filing (docs : List (List UInt8)) (s : StreamServer) : Prop where
  nextAddress : s.nextAddress = docs.length + 1
  front : s.builds.head?.map BuildInfo.address = some docs.length
  texts : ∀ b ∈ s.builds, b.address ≠ docs.length → docs[b.address]? = some b.buf

theorem filed_create : Filed [] create := ⟨rfl, fun b hb ↦ by cases hb⟩

theorem Filed.keeps (h : Filed docs s) (hkeeps : Keeps s s') : Filed docs s' := by
  refine ⟨hkeeps.nextAddress.trans h.nextAddress, fun x hx ↦ ?_⟩
  obtain ⟨y, hy, haddress, htext⟩ := hkeeps.texts x hx
  rw [haddress, htext]
  exact h.texts y hy

theorem Filing.onlyFront (h : Filing docs s) (hfront : OnlyFront s s') : Filing docs s' := by
  refine ⟨hfront.nextAddress.trans h.nextAddress, hfront.front.trans h.front, fun x hx hne ↦ ?_⟩
  obtain ⟨y, hy, haddress, htext⟩ := hfront.texts x hx
  rw [haddress] at hne ⊢
  rw [htext (by rw [h.front]; exact fun heq ↦ hne (Option.some.inj heq).symm)]
  exact h.texts y hy hne

theorem Filed.newBuild (h : Filed docs s) {buildId : ℕ} (hrun : newBuild buildId s = .ok s') :
    Filing docs s' := by
  obtain ⟨s₁, hdrop, hrun⟩ := Lib.bind_eq_ok.mp hrun
  have hdropped := h.keeps (keeps_dropPrevious hdrop)
  have hpushed : Filing docs (s₁.pushBuild buildId) := by
    refine ⟨congrArg (· + 1) hdropped.nextAddress, congrArg some hdropped.nextAddress, ?_⟩
    intro b hb hne
    rcases List.mem_cons.mp hb with rfl | hb
    · exact absurd hdropped.nextAddress hne
    · exact hdropped.texts b hb
  exact hpushed.onlyFront (onlyFront_writeBuf hrun)

/-- The build in front is the last one. -/
theorem Filing.endBuild (h : Filing docs s) {result : BuildResult}
    (hrun : endBuild result s = .ok s') (hkept : s'.Kept) {front : BuildInfo}
    {bs : List BuildInfo} (hbuilds : s'.builds = front :: bs) :
    Filed (docs ++ [front.buf]) s' := by
  have hfiling := h.onlyFront (onlyFront_endBuild hrun)
  have hfront : front.address = docs.length := by simpa [hbuilds] using hfiling.front
  obtain ⟨sent, htracks⟩ := hkept.tracks
  refine ⟨by rw [hfiling.nextAddress, List.length_append, List.length_singleton], fun b hb ↦ ?_⟩
  by_cases hlast : b.address = docs.length
  · obtain rfl : b = front := htracks.build_eq hb (by simp [hbuilds]) (hlast.trans hfront.symm)
    rw [hlast, List.getElem?_concat_length]
  · have htext := hfiling.texts b hb hlast
    rw [List.getElem?_append_left (List.getElem?_eq_some_iff.mp htext).1, htext]

end StreamServer

end Falcon
