import ShaderIR.Proofs.Reuse

/-! Faults about blocks that are not paired. Of the calls, only those that switch and close blocks
give them; and a compilation gives one only for a block that is open when it starts, whatever else
is wrong with the draft. -/
namespace ShaderIR

variable {d : Draft}

theorem Carries.paired {α β : Type} {value : α → β} {x : Build α} {y : Build β}
    (carries : Carries .still d.types value x y) :
    Outcome x d (fun _ _ => True) fun fault _ => fault.isUnpaired = false := by
  unfold Outcome
  cases run : x d with
  | ok a d' => trivial
  | error fault d' =>
    obtain ⟨_, _, _, repeats, _⟩ := (carries d _ rfl).error run
    exact repeats.2

/-- A draft without open blocks is not refused for unpaired blocks. -/
theorem Draft.compilation_paired (closed : d.scopes = []) {fault : Fault}
    (refused : d.compilation.result = .error fault) : fault.isUnpaired = false := by
  simp only [compilation, assemble, EStateM.run] at refused
  cases run : Emit.everything d (.start d) with
  | ok done e =>
    rw [run] at refused
    contradiction
  | error fault' e =>
    rw [run] at refused
    obtain rfl := Except.error.inj refused
    have reflects := Emit.reflects_everything .still d.types closed
    obtain ⟨_, _, _, repeats, _⟩ := (reflects _ _ (Shift.mirrors_still _)).error run
    exact repeats.2

end ShaderIR
