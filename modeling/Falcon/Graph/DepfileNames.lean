import Mathlib.Data.List.Chain
import Falcon.Graph.DepfileReading

/-!
# The names a depfile can carry

Every name that `DepfileParser::Parse` returns is made of characters that stand for
themselves or lose their escape, and of others right behind a backslash.  Each such
name has a spelling, and a depfile with the spellings of an output and of inputs is
read as these.
-/

namespace Falcon

namespace DepfileParser

/-- A character that a name can have anywhere. -/
def isBare (c : UInt8) : Bool := isPlain c || c = 0x24 || isEscaped c

/-- A character that ends a name. -/
def isBlank (c : UInt8) : Bool := !isPlain c && c ≠ 0x24 && c ≠ 0x5c && c < 0x80

/-- Which character may stand behind which in a name. -/
def Follows (a b : UInt8) : Prop := isBare b = true ∨ a = 0x5c ∧ isVerbatim b = true

instance (a b : UInt8) : Decidable (Follows a b) := inferInstanceAs (Decidable (_ ∨ _))

/-- A text of which the scanner can make a part of a name. -/
structure Spelled (name : List UInt8) : Prop where
  head : ∀ c ∈ name.head?, isBare c = true
  chain : name.IsChain Follows

/-- A name that a depfile can carry. -/
def Carriable (name : List UInt8) : Prop := name ≠ [] ∧ Spelled name

theorem isBare_of_isPlain {c : UInt8} (h : isPlain c = true) : isBare c = true := by
  rw [isBare, h]
  rfl

theorem isBare_of_isEscaped {c : UInt8} (h : isEscaped c = true) : isBare c = true := by
  rw [isBare, h, Bool.or_true]

theorem isBare_backslash : isBare 0x5c = true := by decide

namespace Spelled

variable {name : List UInt8} {c : UInt8}

theorem nil : Spelled [] := ⟨nofun, .nil⟩

theorem snoc (h : Spelled name) (hc : isBare c = true) : Spelled (name ++ [c]) := by
  refine ⟨fun d hd ↦ ?_, ?_⟩
  · cases name with
    | nil =>
        obtain rfl := Option.some.inj hd
        exact hc
    | cons a name => exact h.head d hd
  · exact List.isChain_append.mpr ⟨h.chain, .singleton c, fun _ _ b hb ↦ by
      obtain rfl := Option.some.inj hb
      exact Or.inl hc⟩

/-- Two characters: a backslash and one that keeps it. -/
theorem snoc_verbatim (h : Spelled name) (hc : isVerbatim c = true) :
    Spelled (name ++ [0x5c, c]) := by
  have hback := h.snoc isBare_backslash
  have happend : name ++ [0x5c, c] = name ++ [0x5c] ++ [c] := by simp
  rw [happend]
  refine ⟨fun d hd ↦ hback.head d ?_, ?_⟩
  · rw [List.head?_append_of_ne_nil _ (by simp)] at hd
    exact hd
  · refine List.isChain_append.mpr ⟨hback.chain, .singleton c, fun a ha b hb ↦ ?_⟩
    obtain rfl := Option.some.inj hb
    rw [List.getLast?_concat] at ha
    obtain rfl := Option.some.inj ha
    exact Or.inr ⟨rfl, hc⟩

theorem dropLast (h : Spelled name) : Spelled name.dropLast := by
  refine ⟨fun c hc ↦ h.head c ?_, h.chain.dropLast⟩
  cases name with
  | nil => cases hc
  | cons a name =>
      cases name with
      | nil => cases hc
      | cons b name => exact hc

end Spelled

/-! ## What is read can be carried -/

/-- The names that the machine has found, and the one that it is reading. -/
structure Carries (r : Reading) : Prop where
  name : Spelled r.name
  out : ∀ n ∈ r.names.1, Carriable n
  ins : ∀ n ∈ r.names.2, Carriable n

namespace Carries

variable {r t : Reading} {code : Option Refusal} {c : UInt8}

theorem create : Carries Reading.create := ⟨.nil, nofun, nofun⟩

theorem setMode (h : Carries r) (mode : Mode) : Carries { r with mode := mode } :=
  ⟨h.name, h.out, h.ins⟩

theorem append (h : Carries r) (mode : Mode) {cs : List UInt8} (hname : Spelled (r.name ++ cs)) :
    Carries (r.append mode cs) := ⟨hname, h.out, h.ins⟩

theorem keep_carriable {names names' : Names} {name : List UInt8} (isTarget : Bool)
    (hout : ∀ n ∈ names.1, Carriable n) (hins : ∀ n ∈ names.2, Carriable n)
    (hname : Spelled name) (hkeep : keep names isTarget name = (names', code)) :
    (∀ n ∈ names'.1, Carriable n) ∧ ∀ n ∈ names'.2, Carriable n := by
  rw [keep] at hkeep
  split_ifs at hkeep with hnil htarget
  · cases hkeep
    exact ⟨hout, hins⟩
  · cases hkeep
    refine ⟨hout, fun n hn ↦ ?_⟩
    rcases List.mem_append.mp hn with hold | hnew
    · exact hins n hold
    · exact List.mem_singleton.mp hnew ▸ ⟨hnil, hname⟩
  · split at hkeep
    · cases hkeep
      exact ⟨fun n hn ↦ Option.some.inj hn ▸ ⟨hnil, hname⟩, hins⟩
    · cases hkeep
      exact ⟨hout, hins⟩

theorem endName (h : Carries r) (hend : r.endName = (t, code)) : Carries t := by
  rw [Reading.endName] at hend
  have hbare : Spelled
      (if decide (r.name.getLast? = some 0x3a) then r.name.dropLast else r.name) := by
    split_ifs
    · exact h.name.dropLast
    · exact h.name
  obtain ⟨hout, hins⟩ := keep_carriable r.parsingTargets h.out h.ins hbare rfl
  cases hend
  exact ⟨.nil, hout, hins⟩

theorem first (h : Carries r) (hfirst : r.first c = (t, code)) : Carries t := by
  rw [Reading.first] at hfirst
  split_ifs at hfirst with hplain
  · cases hfirst
    exact h.append .plain (h.name.snoc (isBare_of_isPlain hplain))
  · cases hfirst
    exact h.setMode .dollar
  · cases hfirst
    exact h.setMode .backslash
  · exact h.endName hfirst

theorem endFirst (h : Carries r) (hend : r.endFirst c = (t, code)) : Carries t := by
  rw [Reading.endFirst] at hend
  rcases hname : r.endName with ⟨r', _ | e⟩
  · rw [hname] at hend
    exact (h.endName hname).first hend
  · rw [hname] at hend
    cases hend
    exact h.endName hname

theorem step (h : Carries r) (hstep : r.step c = (t, code)) : Carries t := by
  rw [Reading.step] at hstep
  split at hstep
  · exact h.first hstep
  · split_ifs at hstep
    · cases hstep
      exact h
    · exact h.first hstep
  · split_ifs at hstep
    · cases hstep
      exact h.append .start (h.name.snoc (by decide))
    · exact h.endFirst hstep
  · split_ifs at hstep with hescaped hverbatim
    · cases hstep
      exact h.append .start (h.name.snoc (isBare_of_isEscaped hescaped))
    · cases hstep
      exact h.append .start (h.name.snoc_verbatim hverbatim)
    · exact h.endFirst hstep

end Carries

/-- What a content is read as. -/
theorem carriable_of_readDepfile {content : List UInt8} {names : Names}
    (h : readDepfile content = .ok (.ok names)) :
    (∀ n ∈ names.1, Carriable n) ∧ ∀ n ∈ names.2, Carriable n := by
  rw [readDepfile, Reading.run] at h
  rcases hfeed : Lib.feed Reading.step Reading.create content with ⟨r, _ | e⟩
  · rw [hfeed] at h
    have hr : Carries r :=
      Lib.feed_invariant Carries (fun _ _ _ hs hstep ↦ hs.step hstep) .create hfeed
    change r.finish = _ at h
    rw [Reading.finish] at h
    rcases hend : r.endName with ⟨t, _ | e⟩
    · rw [hend] at h
      cases h
      exact ⟨(hr.endName hend).out, (hr.endName hend).ins⟩
    · rw [hend] at h
      cases e <;> cases h
  · rw [hfeed] at h
    change e.result = _ at h
    cases e <;> cases h

/-! ## What can be carried is read -/

/-- A character that a name can have anywhere, in a depfile. -/
def quote (c : UInt8) : List UInt8 :=
  if c = 0x24 then [0x24, 0x24] else if isEscaped c then [0x5c, c] else [c]

/-- A name in a depfile. -/
def spell : List UInt8 → List UInt8
  | [] => []
  | [c] => quote c
  | c :: d :: name =>
    if c = 0x5c ∧ ¬ isBare d then c :: d :: spell name else quote c ++ spell (d :: name)

/-- What the scanner has to read for a name: it takes a colon off. -/
def written (name : List UInt8) : List UInt8 :=
  if name.getLast? = some 0x3a then name ++ [0x3a] else name

/-- Blanks, and backslashes that continue a line. -/
inductive Gap : List UInt8 → Prop
  | nil : Gap []
  | blank {c l} (hc : isBlank c = true) (h : Gap l) : Gap (c :: l)
  | continuation {l} (h : Gap l) : Gap (0x5c :: 0x0a :: l)

namespace Reading

variable {r t : Reading} {c d : UInt8} {l gap name rest : List UInt8}

/-- Where a name can go on or end: not within an escape. -/
def Free (r : Reading) : Prop := r.mode = .start ∨ r.mode = .plain

theorem step_free (h : r.Free) (hc : ¬ 0x80 ≤ c) : r.step c = r.first c := by
  rcases h with h | h
  · rw [step, h]
  · rw [step, h]
    exact if_neg hc

theorem isBlank_iff : isBlank c = true ↔
    ¬ isPlain c = true ∧ c ≠ 0x24 ∧ c ≠ 0x5c ∧ ¬ 0x80 ≤ c := by
  simp [isBlank, UInt8.not_le, and_assoc]

theorem run_blank (h : r.Free) (hc : isBlank c = true) : r.run (c :: l) = r.endRun l := by
  obtain ⟨hplain, hdollar, hback, hsmall⟩ := isBlank_iff.mp hc
  have hfirst : r.step c = r.endName := by
    rw [step_free h hsmall, first, if_neg hplain, if_neg hdollar, if_neg hback]
  rw [endRun]
  rcases hend : r.endName with ⟨t, _ | e⟩
  · exact run_cons_of_none (hfirst.trans hend)
  · exact run_cons_of_some (hfirst.trans hend)

theorem run_continuation (h : r.Free) : r.run (0x5c :: 0x0a :: l) = r.endRun (0x0a :: l) := by
  have hfirst : r.step 0x5c = ({ r with mode := .backslash }, none) := step_free h (by decide)
  rw [run_cons_of_none hfirst]
  exact run_endFirst (r := { r with mode := .backslash }) rfl

/-- An empty name does not count. -/
theorem endRun_endName (h : r.endName = (t, none)) : t.endRun l = t.run l := by
  obtain ⟨hmode, hname⟩ := endName_mode_name h
  rw [endRun, endName_nil hname]
  obtain ⟨mode, name, targets, names⟩ := t
  obtain rfl : mode = .start := hmode
  obtain rfl : name = [] := hname
  rfl

theorem endRun_gap (hgap : Gap gap) : r.endRun (gap ++ rest) = r.endRun rest := by
  induction hgap generalizing r with
  | nil => rfl
  | @blank c l hc _ ih =>
      rw [endRun, endRun]
      rcases hend : r.endName with ⟨t, _ | e⟩
      · change t.run (c :: (l ++ rest)) = t.run rest
        rw [run_blank (Or.inl (endName_mode_name hend).1) hc, ih, endRun_endName hend]
      · rfl
  | @continuation l _ ih =>
      rw [endRun, endRun]
      rcases hend : r.endName with ⟨t, _ | e⟩
      · have hfree : t.Free := Or.inl (endName_mode_name hend).1
        change t.run (0x5c :: 0x0a :: (l ++ rest)) = t.run rest
        rw [run_continuation hfree, endRun_endName hend, run_blank hfree (by decide), ih,
          endRun_endName hend]
      · rfl

theorem run_gap (h : r.Free) (hgap : Gap gap) (hne : gap ≠ []) :
    r.run (gap ++ rest) = r.endRun rest := by
  cases hgap with
  | nil => exact absurd rfl hne
  | blank hc hl => exact (run_blank h hc).trans (endRun_gap hl)
  | continuation hl =>
      refine (run_continuation h).trans ?_
      have hnewline : Gap (0x0a :: _) := .blank (by decide) hl
      exact endRun_gap hnewline

theorem run_gap_end (h : r.Free) (hgap : Gap gap) : r.run gap = r.finish := by
  by_cases hne : gap = []
  · rw [hne, run_nil]
  · have hrun : r.run (gap ++ []) = r.endRun [] := run_gap h hgap hne
    rwa [List.append_nil, endRun_nil] at hrun

/-! ### Names -/

theorem run_quote (h : r.Free) (hc : isBare c = true) :
    ∃ mode, (r.append mode [c]).Free ∧
      r.run (quote c ++ rest) = (r.append mode [c]).run rest := by
  by_cases hdollar : c = 0x24
  · subst hdollar
    have hfirst : r.step 0x24 = ({ r with mode := .dollar }, none) := step_free h (by decide)
    refine ⟨.start, Or.inl rfl, ?_⟩
    change r.run (0x24 :: 0x24 :: rest) = _
    rw [run_cons_of_none hfirst]
    exact run_cons_of_none rfl
  · by_cases hescaped : isEscaped c = true
    · have hquote : quote c = [0x5c, c] := by rw [quote, if_neg hdollar, if_pos hescaped]
      have hfirst : r.step 0x5c = ({ r with mode := .backslash }, none) := step_free h (by decide)
      refine ⟨.start, Or.inl rfl, ?_⟩
      rw [hquote]
      change r.run (0x5c :: c :: rest) = _
      rw [run_cons_of_none hfirst]
      exact run_cons_of_none (if_pos hescaped)
    · have hplain : isPlain c = true := by
        rw [isBare, Bool.or_eq_true, Bool.or_eq_true, decide_eq_true_eq] at hc
        exact (hc.resolve_right hescaped).resolve_right hdollar
      have hquote : quote c = [c] := by rw [quote, if_neg hdollar, if_neg hescaped]
      have hfirst : r.step c = (r.append .plain [c], none) :=
        (step_free h (not_large_of_isPlain hplain)).trans (if_pos hplain)
      refine ⟨.plain, Or.inr rfl, ?_⟩
      rw [hquote]
      exact run_cons_of_none hfirst

theorem append_append (r : Reading) (mode mode' : Mode) (cs ds : List UInt8) :
    (r.append mode cs).append mode' ds = r.append mode' (cs ++ ds) := by
  simp [append]

end Reading

theorem Spelled.tail {a : UInt8} {name : List UInt8} (h : Spelled (a :: name))
    (hhead : ∀ c ∈ name.head?, isBare c = true) : Spelled name :=
  ⟨hhead, h.chain.tail⟩

/-- The spelling of a name is read as that name. -/
theorem Reading.run_spell {r : Reading} {name rest : List UInt8} (h : r.Free)
    (hname : Spelled name) : ∃ mode, (r.append mode name).Free ∧
      r.run (spell name ++ rest) = (r.append mode name).run rest := by
  fun_induction spell name generalizing r with
  | case1 => exact ⟨r.mode, h, by rw [append_nil]; rfl⟩
  | case2 c => exact run_quote h (hname.head c rfl)
  | case3 c d name hpair ih =>
      obtain ⟨rfl, hd⟩ := hpair
      have hfollows : Follows 0x5c d := by
        have := hname.chain
        rw [List.isChain_cons_cons] at this
        exact this.1
      have hverbatim : isVerbatim d = true := (hfollows.resolve_left hd).2
      have hescaped : ¬ isEscaped d = true := fun hesc ↦ hd (isBare_of_isEscaped hesc)
      have hrest : Spelled name := by
        have hchain := hname.chain.tail
        refine ⟨fun e he ↦ ?_, hchain.tail⟩
        have hnext : Follows d e := List.IsChain.rel_head? hchain he
        refine hnext.resolve_right fun hback ↦ hd ?_
        rw [hback.1]
        exact isBare_backslash
      have hfirst : r.step 0x5c = ({ r with mode := .backslash }, none) :=
        step_free h (by decide)
      have hsecond : ({ r with mode := .backslash } : Reading).step d =
          (r.append .start [0x5c, d], none) := by
        rw [step]
        exact (if_neg hescaped).trans (if_pos hverbatim)
      obtain ⟨mode, hfree, hrun⟩ := ih (r := r.append .start [0x5c, d]) (Or.inl rfl) hrest
      rw [append_append] at hfree hrun
      refine ⟨mode, hfree, ?_⟩
      change r.run (0x5c :: d :: (spell name ++ rest)) = _
      rw [run_cons_of_none hfirst, run_cons_of_none hsecond]
      exact hrun
  | case4 c d name hpair ih =>
      have hc : isBare c = true := hname.head c rfl
      have hrest : Spelled (d :: name) := by
        refine hname.tail fun e he ↦ ?_
        obtain rfl := Option.some.inj he
        have hfollows : Follows c d := by
          have := hname.chain
          rw [List.isChain_cons_cons] at this
          exact this.1
        exact hfollows.elim id fun hback ↦ not_not.mp fun hno ↦ hpair ⟨hback.1, hno⟩
      obtain ⟨mode₁, hfree₁, hrun₁⟩ := run_quote h hc
      obtain ⟨mode, hfree, hrun⟩ := ih hfree₁ hrest
      rw [append_append] at hfree hrun
      refine ⟨mode, hfree, ?_⟩
      rw [List.append_assoc, hrun₁]
      exact hrun

/-! ### Depfiles -/

/-- A dependency in a depfile, with the gap in front of it. -/
abbrev Dependency := List UInt8 × List UInt8

/-- A colon at the end of the name has to be written twice. -/
def dependencyText (d : Dependency) : List UInt8 :=
  d.1 ++ (spell d.2 ++ if d.2.getLast? = some 0x3a then [0x3a] else [])

/-- A depfile for `out` and its dependencies. -/
def depfileText (out : List UInt8) (deps : List Dependency) (tail : List UInt8) : List UInt8 :=
  spell out ++ 0x3a :: (deps.flatMap dependencyText ++ tail)

namespace Reading

variable {r t : Reading} {name rest tail : List UInt8} {deps : List Dependency}

theorem run_colon (h : r.Free) : r.run (0x3a :: rest) = (r.append .plain [0x3a]).run rest :=
  run_cons_of_none (step_free h (by decide))

/-- A dependency, with the colon that the scanner is going to take off. -/
theorem run_dependency (h : r.Free) (hname : Spelled name) : ∃ mode,
    (r.append mode (written name)).Free ∧
      r.run (spell name ++ ((if name.getLast? = some 0x3a then [0x3a] else []) ++ rest)) =
        (r.append mode (written name)).run rest := by
  rw [written]
  by_cases hcolon : name.getLast? = some 0x3a
  · obtain ⟨mode, hfree, hrun⟩ := run_spell h hname
    refine ⟨.plain, Or.inr rfl, ?_⟩
    rw [if_pos hcolon, if_pos hcolon, hrun]
    change (r.append mode name).run (0x3a :: rest) = _
    rw [run_colon hfree, append_append]
  · obtain ⟨mode, hfree, hrun⟩ := run_spell h hname
    rw [if_neg hcolon, if_neg hcolon]
    exact ⟨mode, hfree, hrun⟩

theorem endName_written (hname : r.name = written name) (hne : name ≠ [])
    (htargets : r.parsingTargets = false) :
    r.endName = (⟨.start, [], false, (r.names.1, r.names.2 ++ [name])⟩, none) := by
  have hbare : (if decide (r.name.getLast? = some 0x3a) then r.name.dropLast else r.name) =
      name := by
    rw [hname, written]
    by_cases hcolon : name.getLast? = some 0x3a <;> simp [hcolon]
  rw [endName, hbare, htargets, keep, if_neg hne]
  rfl

/-- The dependencies are added one after the other, once the name in front of them
has ended. -/
theorem run_deps (h : r.Free) (hend : r.endName = (t, none)) (htargets : t.parsingTargets = false)
    (hdeps : ∀ d ∈ deps, Gap d.1 ∧ d.1 ≠ [] ∧ Carriable d.2) (htail : Gap tail) :
    r.run (deps.flatMap dependencyText ++ tail) =
      .ok (.ok (t.names.1, t.names.2 ++ deps.map Prod.snd)) := by
  induction deps generalizing r t with
  | nil =>
      rw [List.flatMap_nil, List.nil_append, run_gap_end h htail, finish, hend, List.map_nil,
        List.append_nil]
  | cons d deps ih =>
      rw [List.forall_mem_cons] at hdeps
      obtain ⟨⟨hgap, hne, hcarriable⟩, hdeps⟩ := hdeps
      obtain ⟨hmode, hnil⟩ := endName_mode_name hend
      rw [List.flatMap_cons, dependencyText, List.append_assoc, List.append_assoc,
        List.append_assoc, run_gap h hgap hne, endRun, hend]
      change t.run _ = _
      obtain ⟨mode, hfree, hrun⟩ := run_dependency (Or.inl hmode) hcarriable.2
      rw [hrun]
      have hname : (t.append mode (written d.2)).name = written d.2 := by
        rw [append, hnil]
        rfl
      rw [ih hfree (endName_written hname hcarriable.1 htargets) rfl hdeps, List.map_cons,
        ← List.append_cons]
      rfl

end Reading

/-- A depfile is read as the names that are spelled in it. -/
theorem readDepfile_text {out tail : List UInt8} {deps : List Dependency} (hout : Carriable out)
    (hdeps : ∀ d ∈ deps, Gap d.1 ∧ d.1 ≠ [] ∧ Carriable d.2) (htail : Gap tail) :
    readDepfile (depfileText out deps tail) = .ok (.ok (some out, deps.map Prod.snd)) := by
  obtain ⟨mode, hfree, hrun⟩ := Reading.run_spell (r := Reading.create) (Or.inl rfl) hout.2
  rw [readDepfile, depfileText, hrun, Reading.run_colon hfree]
  have hend : ((Reading.create.append mode out).append .plain [0x3a]).endName =
      (⟨.start, [], false, (some out, [])⟩, none) := by
    simp [Reading.endName, Reading.append, Reading.create, keep, hout.1]
  exact Reading.run_deps (Or.inr rfl) hend rfl hdeps htail

/-- What `Parse` returns is what the machine has found. -/
theorem parse_of_readDepfile {content : List UInt8} {names : Names}
    (h : readDepfile content = .ok (.ok names)) :
    ∃ p, parse content = .ok (.ok p) ∧ p.names = names := by
  rw [← parse_run] at h
  rcases hparse : parse content with f | err | p
  · rw [hparse] at h
    cases h
  · rw [hparse] at h
    cases h
  · rw [hparse] at h
    exact ⟨p, rfl, Except.ok.inj (Except.ok.inj h)⟩

theorem readDepfile_of_parse {content : List UInt8} {p : Pieces}
    (h : parse content = .ok (.ok p)) : readDepfile content = .ok (.ok p.names) := by
  rw [← parse_run, h]
  rfl

/-- `Parse` gives back the output and the dependencies that a depfile has been
written for, whatever white space and continued lines are between them. -/
theorem parse_depfileText {out tail : List UInt8} {deps : List Dependency} (hout : Carriable out)
    (hdeps : ∀ d ∈ deps, Gap d.1 ∧ d.1 ≠ [] ∧ Carriable d.2) (htail : Gap tail) :
    ∃ p, parse (depfileText out deps tail) = .ok (.ok p) ∧
      p.names = (some out, deps.map Prod.snd) :=
  parse_of_readDepfile (readDepfile_text hout hdeps htail)

/-- `a b.o` depends on `x#1.c` and, on a line of its own, on `c:`. -/
theorem parse_depfileText_escapes : ∃ p,
    parse (depfileText [0x61, 0x20, 0x62, 0x2e, 0x6f]
      [([0x20], [0x78, 0x23, 0x31, 0x2e, 0x63]), ([0x20, 0x5c, 0x0a, 0x20], [0x63, 0x3a])]
      [0x0a]) = .ok (.ok p) ∧
    p.names =
      (some [0x61, 0x20, 0x62, 0x2e, 0x6f], [[0x78, 0x23, 0x31, 0x2e, 0x63], [0x63, 0x3a]]) := by
  refine parse_depfileText ⟨by decide, by decide +kernel, by decide⟩ ?_ (.blank (by decide) .nil)
  simp only [List.forall_mem_cons, List.not_mem_nil, false_implies, implies_true, and_true]
  exact ⟨⟨.blank (by decide) .nil, by decide, by decide, by decide +kernel, by decide⟩,
    .blank (by decide) (.continuation (.blank (by decide) .nil)), by decide, by decide,
    by decide +kernel, by decide⟩

/-- A name comes out of some depfile, as an output or as a dependency, if and only if
it can be carried: a name with a character that is not ASCII, say, never does, nor one
with a percent sign that has no backslash in front of it. -/
theorem parse_carries_iff (name : List UInt8) :
    ((∃ content p, parse content = .ok (.ok p) ∧ name ∈ p.names.2) ↔ Carriable name) ∧
    ((∃ content p, parse content = .ok (.ok p) ∧ p.names.1 = some name) ↔ Carriable name) := by
  refine ⟨⟨?_, fun h ↦ ?_⟩, ⟨?_, fun h ↦ ?_⟩⟩
  · rintro ⟨content, p, hparse, hname⟩
    exact (carriable_of_readDepfile (readDepfile_of_parse hparse)).2 name hname
  · have hdeps : ∀ d ∈ [(([0x20], name) : Dependency)], Gap d.1 ∧ d.1 ≠ [] ∧ Carriable d.2 := by
      rintro d hd
      obtain rfl := List.mem_singleton.mp hd
      exact ⟨.blank (by decide) .nil, by simp, h⟩
    obtain ⟨p, hparse, hnames⟩ := parse_of_readDepfile (readDepfile_text h hdeps .nil)
    exact ⟨_, p, hparse, by rw [hnames]; exact List.mem_singleton_self name⟩
  · rintro ⟨content, p, hparse, hname⟩
    exact (carriable_of_readDepfile (readDepfile_of_parse hparse)).1 name hname
  · have hdeps : ∀ d ∈ ([] : List Dependency), Gap d.1 ∧ d.1 ≠ [] ∧ Carriable d.2 := by simp
    obtain ⟨p, hparse, hnames⟩ := parse_of_readDepfile (readDepfile_text h hdeps .nil)
    exact ⟨_, p, hparse, by rw [hnames]⟩

end DepfileParser

end Falcon
