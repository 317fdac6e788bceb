import Falcon.Graph.DepfileNames
import Falcon.Graph.Installs

/-!
# Loading the text of a depfile

What `Depfile::load` makes of the bytes that a compiler has written: with
`DepfileParser::Parse` for the parser the implicit inputs of the rule become the
files that are spelled in them.
-/

namespace Falcon

namespace DepfileParser

/-- A path that a depfile can carry. -/
def CarriablePath (path : String) : Prop := ∃ name, Carriable name ∧ path = byteString name

theorem CarriablePath.bytes {path : String} (h : CarriablePath path) : Carriable (bytes path) := by
  obtain ⟨name, hname, rfl⟩ := h
  rwa [bytes_byteString]

theorem CarriablePath.byteString_bytes {path : String} (h : CarriablePath path) :
    byteString (Falcon.bytes path) = path := by
  obtain ⟨name, -, rfl⟩ := h
  rw [bytes_byteString]

/-- A dependency as a path, with the gap in front of it. -/
abbrev PathDependency := List UInt8 × String

def PathDependency.bytes (d : PathDependency) : Dependency := (d.1, Falcon.bytes d.2)

/-- The paths that have been written are those that are read. -/
theorem parseDepfile_text {content out : String} {deps : List PathDependency} {tail : List UInt8}
    (hout : CarriablePath out) (hdeps : ∀ d ∈ deps, Gap d.1 ∧ d.1 ≠ [] ∧ CarriablePath d.2)
    (htail : Gap tail)
    (hcontent : bytes content = depfileText (bytes out) (deps.map (·.bytes)) tail) :
    parseDepfile content = some (out, deps.map Prod.snd) := by
  have hbytes : ∀ d ∈ deps.map (·.bytes), Gap d.1 ∧ d.1 ≠ [] ∧ Carriable d.2 := by
    intro d hd
    obtain ⟨dep, hdep, rfl⟩ := List.mem_map.mp hd
    obtain ⟨hgap, hne, hpath⟩ := hdeps dep hdep
    exact ⟨hgap, hne, hpath.bytes⟩
  obtain ⟨p, hparse, hnames⟩ := parse_of_readDepfile (readDepfile_text hout.bytes hbytes htail)
  rw [parseDepfile, hcontent, hparse]
  change some (byteString (p.names.1.getD []), p.names.2.map byteString) = _
  rw [hnames]
  refine congrArg some (Prod.ext hout.byteString_bytes ?_)
  change ((deps.map (·.bytes)).map Prod.snd).map byteString = _
  rw [List.map_map, List.map_map]
  exact List.map_congr_left fun d hd ↦ (hdeps d hd).2.2.byteString_bytes

end DepfileParser

namespace Depfile

open Graph DepfileParser

variable {ω : Type} {P : Platform ω} {w : ω} {g g' : Graph} {r : RuleId} {first : NodeId}

theorem loadable_of_joined (hg : g.Joined) (hr : r ∈ g.rules) : Loadable g r where
  inputs n hn := hg.allocated r hr n (Or.inl hn)
  implicit n hn := (hg.twoWay.mem_parents n r).mpr ⟨hr, List.mem_of_mem_drop hn⟩
  nodes e he := (hg.nodes e he).1

end Depfile

end Falcon
