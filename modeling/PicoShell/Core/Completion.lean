import PicoShell.Core.Scripts
import PicoShell.Scheduling.Duplicates
import PicoShell.Scheduling.Termination

namespace PicoShell.Core

open Scheduling

variable {s : Sizes} {size : ℕ} {H : Type} {o : Setting s size H} {m m₁ : Memory s size H}
  {inp policy : List UInt8} {names input : List (List UInt8)} {p : Policy} {ts : ℕ}

/-- What `RR` and `RR30` need: a frame for each script, and no address of a process to which a frame
was left. -/
def Unhindered (o : Setting s size H) (m : Memory s size H) (names : List (List UInt8))
    (p : Policy) : Prop :=
  ∀ ts, p = .rr ts → names.length ≤ s.numFrames ∧
    ∀ f q page, m.frameTable f = some (q, page) → ∀ m', o.env.malloc m' ≠ q

theorem one_le_timeSlice {name : String} (h : policyOf name = some (.rr ts)) : 1 ≤ ts := by
  unfold policyOf at h
  split_ifs at h
  all_goals cases h
  · decide
  · decide

theorem Unhindered.roomFor (h : Unhindered o m names p) (hcons : Consistent [] m)
    (hempty : m.queue = []) (hpolicy : policyOf (textOf policy) = some p) {w : World size H}
    {files : String → Option (List (List UInt8))}
    (hbuild : buildReadyQueue o.env files (programsOf names) { m with world := w } = .ok (0, m₁))
    (hbuilt : Built files (programsOf names) { m with world := w } m₁) : RoomFor p m₁ := by
  intro ts hp
  obtain ⟨hfew, hstale⟩ := h ts hp
  refine ⟨one_le_timeSlice (hp ▸ hpolicy), ?_, ?_⟩
  · have hlen := congrArg List.length hbuilt.names
    rw [List.length_map, reduceOption_programsOf, List.length_map] at hlen
    omega
  · exact coherent_of_build (hcons.withWorld w) hempty hstale hbuild

theorem plain_nonempty {files : String → Option (List (List UInt8))} {script : String}
    (hfiles : ∀ name ∈ names, PlainFile (files (textOf name)))
    (hscript : script ∈ (programsOf names).reduceOption) :
    ∃ contents, files script = some contents ∧ contents ≠ [] ∧ contents.length ≤ maxLines := by
  rw [reduceOption_programsOf] at hscript
  obtain ⟨name, hname, rfl⟩ := List.mem_map.mp hscript
  obtain ⟨lines, hlines, hne, hlen, -⟩ := hfiles name hname
  exact ⟨lines, hlines, hne, hlen⟩

theorem shuffle_plain {lines : List (List UInt8)}
    (hfiles : ∀ name ∈ names, PlainFile (o.host.lines m.world.host (textOf name)))
    (h : Shuffle (names.map (fileLines o m)) lines) : ∀ line ∈ lines, PlainLine line := by
  intro line hline
  obtain ⟨l, hl, hmem⟩ := h.exists_mem hline
  obtain ⟨name, hname, rfl⟩ := List.mem_map.mp hl
  exact plain_fileLines hfiles line (List.mem_flatMap.mpr ⟨name, hname, hmem⟩)

theorem isExec_turns : IsExec (ascii "exec a b RR") [ascii "a", ascii "b"] (ascii "RR") :=
  ⟨ascii "exec a b RR", [ascii "exec", ascii "a", ascii "b", ascii "RR"], by decide, by decide,
    by decide, by decide, by decide⟩

end PicoShell.Core
